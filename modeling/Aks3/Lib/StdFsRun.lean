import Aks3.Lib.Disk

/-!
# The compound calls, run alone

What `create_dir_all` and `remove_dir_all` do when nothing else runs. The first
makes the directories that are missing on the way to its target, one `mkdir`
each, from the top down (`Made`). The second takes away a directory with
everything below it; the bound on its depth is the size of the tree, which is
always enough.
-/

set_option autoImplicit false

namespace Aks3.Lib

namespace World

variable {N : Type} [DecidableEq N]

/-- Nothing changed but the count of the surroundings' choices. -/
structure Ticked (w w' : World N) : Prop where
  fs : w'.fs = w.fs
  clock : w'.clock = w.clock

theorem Ticked.refl (w : World N) : w.Ticked w := ⟨rfl, rfl⟩

theorem Ticked.trans {w w' w'' : World N} (h : w.Ticked w') (h' : w'.Ticked w'') : w.Ticked w'' :=
  ⟨h'.fs.trans h.fs, h'.clock.trans h.clock⟩

@[simp] theorem withFs_error {α : Type} (w : World N) (e : ErrorKind) :
    w.withFs ((.error e : Except ErrorKind α), w.fs) = (.error e.os, w) := rfl

@[simp] theorem withFs_ok {α : Type} (w : World N) (a : α) (fs : Fs N) :
    w.withFs ((.ok a : Except ErrorKind α), fs) = (.ok a, { w with fs := fs }) := rfl

theorem withFs_of_ok {α : Type} {w : World N} {r : Except ErrorKind α × Fs N} {a : α}
    (h : r.1 = .ok a) : w.withFs r = (.ok a, { w with fs := r.2 }) := by
  rw [withFs, h]
  rfl

/-- What a run of calls keeps: the order of the filesystem, what is on disk outside
`D` and `F`, and the clock. -/
structure Keeps (w w' : World N) (D F : Set (Path N)) : Prop where
  wf : w.fs.Wf → w'.fs.Wf
  kept : w.fs.Wf → w.fs.Kept w'.fs D F
  clock : w'.clock = w.clock

namespace Keeps

variable {w w' w'' : World N} {D D' F F' : Set (Path N)}

theorem refl (w : World N) : w.Keeps w ∅ ∅ := ⟨id, fun _ => .refl _, rfl⟩

theorem trans (h : w.Keeps w' D F) (h' : w'.Keeps w'' D' F') : w.Keeps w'' (D ∪ D') (F ∪ F') :=
  ⟨fun hw => h'.wf (h.wf hw), fun hw => (h.kept hw).trans (h'.kept (h.wf hw)),
    h'.clock.trans h.clock⟩

theorem mono (h : w.Keeps w' D F) (hD : D ⊆ D') (hF : F ⊆ F') : w.Keeps w' D' F' :=
  ⟨h.wf, fun hw => (h.kept hw).mono hD hF, h.clock⟩

theorem discharge (h : w.Keeps w' D F) (hD : w.fs.Wf → ∀ p ∈ D, p ∈ D' ∨ w'.fs.Settled p)
    (hF : w.fs.Wf → ∀ p ∈ F, p ∈ F' ∨ w'.fs.Synced p) : w.Keeps w' D' F' :=
  ⟨h.wf, fun hw => (h.kept hw).discharge (hD hw) (hF hw), h.clock⟩

end Keeps

theorem Ticked.keeps {w w' : World N} (h : w.Ticked w') : w.Keeps w' ∅ ∅ :=
  ⟨fun hw => h.fs ▸ hw, fun _ => h.fs ▸ .refl _, h.clock⟩

end World

/-! ## Making directories -/

/-- A run of `mkdir` calls that all succeed. -/
inductive Made {N : Type} [DecidableEq N] (fits : N → Bool) :
    Fs N → List (Path N) → Fs N → Prop where
  | nil (fs : Fs N) : Made fits fs [] fs
  | cons {fs fs' fs'' : Fs N} {p : Path N} {ps : List (Path N)}
      (h : fs.mkdir fits p = (.ok (), fs')) (rest : Made fits fs' ps fs'') :
      Made fits fs (p :: ps) fs''

namespace Made

variable {N : Type} [DecidableEq N] {fits : N → Bool} {fs fs' fs'' : Fs N}

theorem append {ps qs : List (Path N)} (h : Made fits fs ps fs') (h' : Made fits fs' qs fs'') :
    Made fits fs (ps ++ qs) fs'' := by
  induction h with
  | nil _ => exact h'
  | cons hd _ ih => exact .cons hd (ih h')

theorem single {p : Path N} (h : fs.mkdir fits p = (.ok (), fs')) : Made fits fs [p] fs' :=
  .cons h (.nil _)

/-- Making directories leaves every file as it was. -/
theorem fileAt {ps : List (Path N)} (h : Made fits fs ps fs') (q : Path N) :
    fs'.tree.fileAt q = fs.tree.fileAt q := by
  induction h with
  | nil _ => rfl
  | @cons fs _ _ p _ hd _ ih =>
      have hfile := Fs.fileAt_mkdir fits fs p q
      rw [hd] at hfile
      exact ih.trans hfile

theorem wf {ps : List (Path N)} (h : Made fits fs ps fs') (w : fs.Wf) : fs'.Wf := by
  induction h with
  | nil _ => exact w
  | @cons fs _ _ p _ hd _ ih =>
      have hwf := (Fs.change_mkdir fits fs p).wf w
      rw [hd] at hwf
      exact ih hwf

/-- Only the directories that got an entry are unsettled. -/
theorem kept {ps : List (Path N)} (h : Made fits fs ps fs') (w : fs.Wf) :
    fs.Kept fs' {q | ∃ p ∈ ps, q = p.tail} ∅ := by
  induction h with
  | nil _ => exact (Fs.Kept.refl _).mono (Set.empty_subset _) le_rfl
  | @cons fs _ _ p _ hd _ ih =>
      have hwf := (Fs.change_mkdir fits fs p).wf w
      have hkept := Fs.kept_mkdir w fits p
      rw [hd] at hwf hkept
      refine (hkept.trans (ih hwf)).mono ?_ (by simp)
      rintro q (rfl | ⟨r, hr, rfl⟩)
      · exact ⟨p, List.mem_cons_self, rfl⟩
      · exact ⟨r, List.mem_cons_of_mem p hr, rfl⟩

/-- The directories there are afterwards. -/
theorem isDir {ps : List (Path N)} (h : Made fits fs ps fs') (q : Path N) :
    fs'.tree.IsDir q ↔ fs.tree.IsDir q ∨ q ∈ ps := by
  induction h with
  | nil _ => simp
  | @cons fs _ _ p _ hd _ ih =>
      have hdir := Fs.isDir_mkdir fits fs p q
      rw [hd] at hdir
      rw [ih, hdir, List.mem_cons]
      simp only [true_and]
      exact or_assoc

end Made

/-- The directories missing on the way to a path, from the top down. -/
def FileTree.missing {N : Type} [DecidableEq N] (t : FileTree N) : Path N → List (Path N)
  | [] => []
  | n :: p => if t.IsDir (n :: p) then [] else t.missing p ++ [n :: p]

namespace FileTree

variable {N : Type} [DecidableEq N] {t : FileTree N}

theorem missing_of_isDir {p : Path N} (h : t.IsDir p) : t.missing p = [] := by
  cases p with
  | nil => rfl
  | cons n p => rw [missing, if_pos h]

theorem mem_missing {p q : Path N} : q ∈ t.missing p ↔ q <:+ p ∧ ¬ t.IsDir q := by
  induction p with
  | nil =>
      simp only [missing, List.not_mem_nil, List.suffix_nil, false_iff, not_and, not_not]
      rintro rfl
      exact t.isDir_nil
  | cons n p ih =>
      rw [missing, List.suffix_cons_iff]
      split
      · rename_i hd
        constructor
        · intro h
          cases h
        · rintro ⟨rfl | hq, hnd⟩
          · exact absurd hd hnd
          · exact absurd (isDir_of_suffix (isDir_tail hd) hq) hnd
      · rename_i hd
        rw [List.mem_append, ih, List.mem_singleton]
        constructor
        · rintro (⟨hq, hnd⟩ | rfl)
          · exact ⟨.inr hq, hnd⟩
          · exact ⟨.inl rfl, hd⟩
        · rintro ⟨rfl | hq, hnd⟩
          · exact .inr rfl
          · exact .inl ⟨hq, hnd⟩

end FileTree

/-! ## Taking directories away -/

/-- A run of `rmdir` and `unlink` calls that all succeed. -/
inductive Dropped {N : Type} [DecidableEq N] (fits : N → Bool) :
    Fs N → List (Path N) → Fs N → Prop where
  | nil (fs : Fs N) : Dropped fits fs [] fs
  | rmdir {fs fs' fs'' : Fs N} {p : Path N} {ps : List (Path N)}
      (h : fs.rmdir fits p = (.ok (), fs')) (rest : Dropped fits fs' ps fs'') :
      Dropped fits fs (p :: ps) fs''
  | unlink {fs fs' fs'' : Fs N} {p : Path N} {ps : List (Path N)}
      (h : fs.unlink fits p = (.ok (), fs')) (rest : Dropped fits fs' ps fs'') :
      Dropped fits fs (p :: ps) fs''

namespace Dropped

variable {N : Type} [DecidableEq N] {fits : N → Bool} {fs fs' fs'' : Fs N}

theorem append {ps qs : List (Path N)} (h : Dropped fits fs ps fs')
    (h' : Dropped fits fs' qs fs'') : Dropped fits fs (ps ++ qs) fs'' := by
  induction h with
  | nil _ => exact h'
  | rmdir hd _ ih => exact .rmdir hd (ih h')
  | unlink hd _ ih => exact .unlink hd (ih h')

theorem wf {ps : List (Path N)} (h : Dropped fits fs ps fs') (w : fs.Wf) : fs'.Wf := by
  induction h with
  | nil _ => exact w
  | @rmdir fs _ _ p _ hd _ ih =>
      have hwf := (Fs.change_rmdir fits fs p).wf w
      rw [hd] at hwf
      exact ih hwf
  | @unlink fs _ _ p _ hd _ ih =>
      have hwf := (Fs.change_unlink fits fs p).wf w
      rw [hd] at hwf
      exact ih hwf

/-- Only the directories that lost an entry are unsettled. -/
theorem kept {ps : List (Path N)} (h : Dropped fits fs ps fs') (w : fs.Wf) :
    fs.Kept fs' {q | ∃ p ∈ ps, q = p.tail} ∅ := by
  induction h with
  | nil _ => exact (Fs.Kept.refl _).mono (Set.empty_subset _) le_rfl
  | @rmdir fs _ _ p _ hd _ ih =>
      have hwf := (Fs.change_rmdir fits fs p).wf w
      have hkept := Fs.kept_rmdir w fits p
      rw [hd] at hwf hkept
      refine (hkept.trans (ih hwf)).mono ?_ (by simp)
      rintro q (rfl | ⟨r, hr, rfl⟩)
      · exact ⟨p, List.mem_cons_self, rfl⟩
      · exact ⟨r, List.mem_cons_of_mem p hr, rfl⟩
  | @unlink fs _ _ p _ hd _ ih =>
      have hwf := (Fs.change_unlink fits fs p).wf w
      have hkept := Fs.kept_unlink w fits p
      rw [hd] at hwf hkept
      refine (hkept.trans (ih hwf)).mono ?_ (by simp)
      rintro q (rfl | ⟨r, hr, rfl⟩)
      · exact ⟨p, List.mem_cons_self, rfl⟩
      · exact ⟨r, List.mem_cons_of_mem p hr, rfl⟩

/-- What is dropped is gone, and nothing else. -/
theorem find {ps : List (Path N)} (h : Dropped fits fs ps fs') (q : Path N) :
    fs'.tree.find q = if q ∈ ps then none else fs.tree.find q := by
  induction h with
  | nil _ => simp
  | @rmdir fs _ _ p _ hd _ ih =>
      rcases Fs.rmdir_cases fits fs p with ⟨n, r, i, j, hc, rfl, -, -, he⟩ | ⟨e, he⟩
      · rw [he] at hd
        obtain rfl := (Prod.mk.inj hd).2
        rw [ih, Fs.find_unlinkAt]
        by_cases hq : q = n :: r <;> simp [hq]
      · rw [he] at hd
        cases hd
  | @unlink fs _ _ p _ hd _ ih =>
      rcases Fs.unlink_cases fits fs p with ⟨n, r, i, a, d, hc, rfl, -, -, he⟩ | ⟨e, he⟩
      · rw [he] at hd
        obtain rfl := (Prod.mk.inj hd).2
        rw [ih, Fs.find_unlinkAt]
        by_cases hq : q = n :: r <;> simp [hq]
      · rw [he] at hd
        cases hd

end Dropped

namespace FileTree

variable {N : Type} [DecidableEq N]

/-- The nodes below a directory. -/
def below (t : FileTree N) (p : Path N) : Finset (Path N) :=
  t.nodes.keys.toFinset.filter fun q => p <:+ q ∧ q ≠ p

theorem mem_below {t : FileTree N} {p q : Path N} :
    q ∈ t.below p ↔ q ≠ [] ∧ t.find q ≠ none ∧ p <:+ q ∧ q ≠ p := by
  simp only [below, Finset.mem_filter, List.mem_toFinset]
  cases q with
  | nil =>
      simp only [ne_eq, not_true_eq_false, false_and, iff_false, not_and]
      intro h
      have hroot := t.rootless
      rw [← Option.not_isSome_iff_eq_none, AList.lookup_isSome] at hroot
      exact absurd (AList.mem_keys.mp h) hroot
  | cons n q =>
      rw [find_cons, ← Option.isSome_iff_ne_none, AList.lookup_isSome, AList.mem_keys]
      simp

theorem below_le (t : FileTree N) (p : Path N) : (t.below p).card ≤ t.nodes.keys.length :=
  (Finset.card_filter_le _ _).trans (List.toFinset_card_le _)

theorem below_mono {t t' : FileTree N} (h : ∀ q, t'.find q ≠ none → t.find q ≠ none)
    (p : Path N) : (t'.below p).card ≤ (t.below p).card := by
  refine Finset.card_le_card fun q hq => ?_
  obtain ⟨hne, hf, hrest⟩ := mem_below.mp hq
  exact mem_below.mpr ⟨hne, h q hf, hrest⟩

/-- A child has fewer nodes below it than its parent. -/
theorem below_child {t : FileTree N} {n : N} {p : Path N} (h : t.find (n :: p) ≠ none) :
    (t.below (n :: p)).card < (t.below p).card := by
  refine Finset.card_lt_card ⟨fun q hq => ?_, fun hsub => ?_⟩
  · obtain ⟨hne, hf, hs, hq'⟩ := mem_below.mp hq
    refine mem_below.mpr ⟨hne, hf, (List.suffix_cons n p).trans hs, ?_⟩
    rintro rfl
    have := hs.length_le
    rw [List.length_cons] at this
    omega
  · have hin : n :: p ∈ t.below p :=
      mem_below.mpr ⟨by simp, h, List.suffix_cons n p, by simp⟩
    exact (mem_below.mp (hsub hin)).2.2.2 rfl

/-- What is below a directory is at or below one of its entries. -/
theorem child_of_suffix {t : FileTree N} {p q : Path N} (hs : p <:+ q) (hne : q ≠ p)
    (hq : t.find q ≠ none) : ∃ n, t.find (n :: p) ≠ none ∧ n :: p <:+ q := by
  induction q with
  | nil => exact absurd (List.suffix_nil.mp hs).symm hne
  | cons m q ih =>
      rcases List.suffix_cons_iff.mp hs with rfl | hs
      · exact absurd rfl hne
      · by_cases hqp : q = p
        · subst hqp
          exact ⟨m, hq, List.suffix_rfl⟩
        · obtain ⟨i, hi⟩ := isDir_of_find hq
          obtain ⟨n, hn, hns⟩ := ih hs hqp (by simp [hi])
          exact ⟨n, hn, hns.trans (List.suffix_cons m q)⟩

end FileTree

namespace StdFs

variable {N L : Type} [DecidableEq N] {env : Env N}

theorem stat_run (p : Path N) (w : World N) :
    (stat p : SysProg N L _).run (World.exec env) w =
      (((w.fs.stat env.fits p).mapError ErrorKind.os).map fun k => ⟨k, env.modified w.tick p⟩,
        { w with tick := w.tick + 1 }) := rfl

theorem isDir_run {p : Path N} {w : World N} (hf : Fit env.fits p) (hp : w.tree.IsDir p) :
    ∃ w', (isDir p : SysProg N L Bool).run (World.exec env) w = (true, w') ∧ w.Ticked w' := by
  obtain ⟨i, hi⟩ := hp
  refine ⟨{ w with tick := w.tick + 1 }, ?_, ⟨rfl, rfl⟩⟩
  simp only [isDir, Prog.run_bind, stat_run, Fs.stat_of_find hf hi]
  rfl

theorem mkdir_run (p : Path N) (w : World N) :
    (mkdir p : SysProg N L _).run (World.exec env) w = w.withFs (w.fs.mkdir env.fits p) := rfl

/-- **`create_dir_all` makes what is missing and succeeds.** -/
theorem createDirAll_run {p : Path N} : ∀ {w : World N}, Fit env.fits p → w.tree.Clear p →
    ∃ w', (createDirAll p : SysProg N L _).run (World.exec env) w = (.ok (), w') ∧
      Made env.fits w.fs (w.tree.missing p) w'.fs ∧ w'.clock = w.clock := by
  induction p with
  | nil => exact fun {w} _ _ => ⟨w, rfl, .nil _, rfl⟩
  | cons n p ih =>
      intro w hf hc
      rw [createDirAll, Prog.run_bind, mkdir_run]
      by_cases hd : w.tree.IsDir (n :: p)
      · -- already there: the failed mkdir is checked by a stat
        obtain ⟨i, hi⟩ := hd
        have hex : w.fs.mkdir env.fits (n :: p) = (.error .alreadyExists, w.fs) :=
          Fs.mkdir_exists hf (by simp [hi])
        obtain ⟨w', hw', ht⟩ := isDir_run (L := L) (w := w) hf ⟨i, hi⟩
        refine ⟨w', ?_, ?_, ht.clock⟩
        · rw [hex, World.withFs_error]
          simp only [ErrorKind.kind_os, reduceCtorEq, if_false, orPresent, if_true, Prog.run_bind]
          rw [hw']
          rfl
        · rw [FileTree.missing_of_isDir ⟨i, hi⟩, ht.fs]
          exact .nil _
      · have hnone : w.tree.find (n :: p) = none := by
          refine FileTree.find_eq_none.mpr ⟨?_, hd⟩
          cases hfile : w.tree.fileAt (n :: p) with
          | none => rfl
          | some d =>
              obtain ⟨i, hi⟩ := FileTree.fileAt_eq_some.mp hfile
              exact absurd hi (hc _ List.suffix_rfl i d)
        by_cases hp : w.tree.IsDir p
        · obtain ⟨i, hp', hx, -, hmk⟩ := Fs.mkdir_ok hf hp hnone
          refine ⟨{ w with fs := (w.fs.mkdir env.fits (n :: p)).2 }, ?_, ?_, rfl⟩
          · simp only [World.withFs, hmk]
            rfl
          · rw [FileTree.missing, if_neg hd, FileTree.missing_of_isDir hp, List.nil_append]
            exact .single (by rw [hmk])
        · -- the parent first, then the directory itself
          have hmiss := Fs.mkdir_missing hf hc.tail hp
          obtain ⟨w₁, hrun, hmade, hclock⟩ := ih (w := w) hf.tail hc.tail
          have hp₁ : w₁.tree.IsDir p :=
            (hmade.isDir p).mpr (or_iff_not_imp_left.mpr fun h =>
              FileTree.mem_missing.mpr ⟨List.suffix_rfl, h⟩)
          have hnone₁ : w₁.tree.find (n :: p) = none := by
            refine FileTree.find_eq_none.mpr ⟨?_, ?_⟩
            · rw [World.tree, hmade.fileAt]
              exact (FileTree.find_eq_none.mp hnone).1
            · rw [World.tree, hmade.isDir]
              rintro (h | h)
              · exact hd h
              · have := (FileTree.mem_missing.mp h).1.length_le
                rw [List.length_cons] at this
                omega
          obtain ⟨i, hp', hx, -, hmk⟩ := Fs.mkdir_ok hf hp₁ hnone₁
          refine ⟨{ w₁ with fs := (w₁.fs.mkdir env.fits (n :: p)).2 }, ?_, ?_, hclock⟩
          · rw [hmiss, World.withFs_error]
            simp only [ErrorKind.kind_os, if_true, Prog.run_bind]
            rw [hrun]
            simp only [Prog.run_bind, mkdir_run, World.withFs, hmk]
            rfl
          · rw [FileTree.missing, if_neg hd]
            exact hmade.append (.single (by rw [hmk]))

/-- `p` and everything below it is gone, and nothing else. -/
structure Cleared (fits : N → Bool) (w w' : World N) (p : Path N) : Prop where
  dropped : ∃ ps, Dropped fits w.fs ps w'.fs ∧ ∀ q ∈ ps, p <:+ q
  gone : ∀ q, p <:+ q → w'.tree.find q = none
  clock : w'.clock = w.clock

theorem Cleared.find {fits : N → Bool} {w w' : World N} {p : Path N} (h : Cleared fits w w' p)
    (q : Path N) : w'.tree.find q = if p <:+ q then none else w.tree.find q := by
  by_cases hq : p <:+ q
  · rw [if_pos hq, h.gone q hq]
  · obtain ⟨ps, hd, hps⟩ := h.dropped
    rw [if_neg hq, World.tree, hd.find, if_neg fun hmem => hq (hps q hmem)]

theorem unlink_run (p : Path N) (w : World N) :
    (unlink p : SysProg N L _).run (World.exec env) w = w.withFs (w.fs.unlink env.fits p) := rfl

theorem rmdir_run (p : Path N) (w : World N) :
    (rmdir p : SysProg N L _).run (World.exec env) w = w.withFs (w.fs.rmdir env.fits p) := rfl

theorem readDir_run (p : Path N) (w : World N) :
    (readDir p : SysProg N L _).run (World.exec env) w =
      (((w.fs.readDir env.fits p).mapError ErrorKind.os).map (env.order w.tick),
        { w with tick := w.tick + 1 }) := rfl

/-- Removing a file leaves nothing at its path and nothing below it. -/
theorem unlink_cleared {n : N} {p : Path N} {w : World N} {a : Nat} {d : Bytes}
    (hf : Fit env.fits (n :: p)) (hx : w.tree.find (n :: p) = some (.file a d)) :
    ∃ w', (unlink (n :: p) : SysProg N L _).run (World.exec env) w = (.ok (), w') ∧
      Cleared env.fits w w' (n :: p) := by
  obtain ⟨j, hc, -, he⟩ := Fs.unlink_ok hf hx
  refine ⟨{ w with fs := w.fs.unlinkAt j n p hc }, ?_, ?_, ?_, rfl⟩
  · rw [unlink_run, he, World.withFs_ok]
  · exact ⟨[n :: p], .unlink he (.nil _), by simp⟩
  · intro q hq
    by_cases hqe : q = n :: p
    · simp [World.tree, hqe]
    · simp only [World.tree, Fs.find_unlinkAt, if_neg hqe]
      by_contra hne
      obtain ⟨l, hl, -⟩ := FileTree.child_of_suffix hq hqe hne
      exact hl (FileTree.hasChild_eq_false.mp (FileTree.hasChild_of_file hx) l)

omit [DecidableEq N] in
/-- Two entries of one directory have nothing in common. -/
theorem not_suffix_of_ne {n m : N} {p : Path N} (h : n ≠ m) : ¬ n :: p <:+ m :: p := by
  intro hs
  rcases List.suffix_cons_iff.mp hs with he | hs
  · exact h (List.cons.inj he).1
  · have := hs.length_le
    rw [List.length_cons] at this
    omega

/-- Removing the entries `cs` of `p` one after the other, when one entry can be removed. -/
theorem forEntries_run {fuel : Nat} {p : Path N}
    (one : ∀ (c : N × Kind) (w : World N), (∃ x, w.tree.find (c.1 :: p) = some x ∧ x.kind = c.2) →
      (∀ q, w.tree.find q ≠ none → Fit env.fits q) → (w.tree.below (c.1 :: p)).card < fuel →
      ∃ w', (removeEntry (removeTree fuel) p c : SysProg N L _).run
        (World.exec env) w = (.ok (), w') ∧
        Cleared env.fits w w' (c.1 :: p)) :
    ∀ (cs : List (N × Kind)) (w : World N), (cs.map Prod.fst).Nodup →
      (∀ c ∈ cs, ∃ x, w.tree.find (c.1 :: p) = some x ∧ x.kind = c.2) →
      (∀ q, w.tree.find q ≠ none → Fit env.fits q) →
      (∀ c ∈ cs, (w.tree.below (c.1 :: p)).card < fuel) →
      ∃ w' ps, (forEntries (removeEntry (removeTree fuel) p) cs : SysProg N L _).run
        (World.exec env) w =
          (.ok (), w') ∧
        Dropped env.fits w.fs ps w'.fs ∧ (∀ q ∈ ps, p <:+ q ∧ q ≠ p) ∧
        (∀ c ∈ cs, ∀ q, c.1 :: p <:+ q → w'.tree.find q = none) ∧ w'.clock = w.clock
  | [], w, _, _, _, _ => ⟨w, [], rfl, .nil _, by simp, by simp, rfl⟩
  | c :: cs, w, hnd, hc, hfit, hb => by
      rw [List.map_cons, List.nodup_cons] at hnd
      obtain ⟨w₁, hrun, hcl⟩ := one c w (hc c List.mem_cons_self) hfit (hb c List.mem_cons_self)
      have hsub : ∀ q, w₁.tree.find q ≠ none → w.tree.find q ≠ none := by
        intro q hq
        rw [hcl.find] at hq
        split at hq
        · exact absurd rfl hq
        · exact hq
      have hother : ∀ c' ∈ cs, w₁.tree.find (c'.1 :: p) = w.tree.find (c'.1 :: p) := by
        intro c' hc'
        rw [hcl.find, if_neg]
        refine not_suffix_of_ne fun he => hnd.1 ?_
        rw [he]
        exact List.mem_map_of_mem hc'
      obtain ⟨w₂, ps, hrun₂, hd₂, hps₂, hgone₂, hclock₂⟩ := forEntries_run one cs w₁ hnd.2
        (fun c' hc' => by
          rw [hother c' hc']
          exact hc c' (List.mem_cons_of_mem c hc'))
        (fun q hq => hfit q (hsub q hq))
        (fun c' hc' => (FileTree.below_mono hsub _).trans_lt (hb c' (List.mem_cons_of_mem c hc')))
      obtain ⟨ps₁, hd₁, hps₁⟩ := hcl.dropped
      refine ⟨w₂, ps₁ ++ ps, ?_, hd₁.append hd₂, ?_, ?_, hclock₂.trans hcl.clock⟩
      · rw [forEntries, Prog.run_bind, hrun]
        exact hrun₂
      · intro q hq
        rcases List.mem_append.mp hq with hq | hq
        · refine ⟨(List.suffix_cons _ p).trans (hps₁ q hq), ?_⟩
          rintro rfl
          have := (hps₁ _ hq).length_le
          rw [List.length_cons] at this
          omega
        · exact hps₂ q hq
      · intro c' hc' q hq
        rcases List.mem_cons.mp hc' with rfl | hc'
        · rw [World.tree, hd₂.find]
          split
          · rfl
          · exact hcl.gone q hq
        · exact hgone₂ c' hc' q hq

/-- **`remove_dir_all` takes a directory away with everything below it.** -/
theorem removeTree_run : ∀ (fuel : Nat) {n : N} {p : Path N} {w : World N},
    w.tree.IsDir (n :: p) → (∀ q, w.tree.find q ≠ none → Fit env.fits q) →
    (w.tree.below (n :: p)).card < fuel →
    ∃ w', (removeTree fuel (n :: p) : SysProg N L _).run (World.exec env) w = (.ok (), w') ∧
      Cleared env.fits w w' (n :: p)
  | 0, _, _, _, _, _, hb => absurd hb (Nat.not_lt_zero _)
  | fuel + 1, n, p, w, hd, hfit, hb => by
      obtain ⟨i, hi⟩ := hd
      have hf := hfit (n :: p) (by simp [hi])
      -- one entry: a directory by induction on the depth, a file by its unlink
      have one : ∀ (c : N × Kind) (w : World N),
          (∃ x, w.tree.find (c.1 :: n :: p) = some x ∧ x.kind = c.2) →
          (∀ q, w.tree.find q ≠ none → Fit env.fits q) →
          (w.tree.below (c.1 :: n :: p)).card < fuel →
          ∃ w', (removeEntry (removeTree fuel) (n :: p) c : SysProg N L _).run (World.exec env) w =
              (.ok (), w') ∧ Cleared env.fits w w' (c.1 :: n :: p) := by
        rintro ⟨m, k⟩ w ⟨x, hx, rfl⟩ hfit hb
        cases x with
        | dir j => exact removeTree_run fuel ⟨j, hx⟩ hfit hb
        | file a d =>
            exact unlink_cleared (hfit (m :: n :: p) (by simp [hx])) hx
      have hperm := env.order_perm w.tick (w.tree.children (n :: p))
      have hmem : ∀ c ∈ env.order w.tick (w.tree.children (n :: p)),
          ∃ x, w.tree.find (c.1 :: n :: p) = some x ∧ x.kind = c.2 := fun c hc =>
        FileTree.mem_children.mp (hperm.mem_iff.mp hc)
      obtain ⟨w₁, ps, hrun, hdrop, hps, hgone, hclock⟩ := forEntries_run one
        (env.order w.tick (w.tree.children (n :: p))) { w with tick := w.tick + 1 }
        ((hperm.map Prod.fst).nodup_iff.mpr (FileTree.nodup_children _ _)) hmem hfit
        (fun c hc => by
          obtain ⟨x, hx, -⟩ := hmem c hc
          have := FileTree.below_child (t := w.tree) (n := c.1) (p := n :: p) (by simp [hx])
          exact lt_of_lt_of_le this (Nat.lt_succ_iff.mp hb))
      -- nothing is left below the directory, so it can be removed itself
      have hempty : ∀ q, n :: p <:+ q → q ≠ n :: p → w₁.tree.find q = none := by
        intro q hq hne
        by_contra hpresent
        have hq₀ : w.tree.find q ≠ none := by
          intro h
          refine hpresent ?_
          rw [World.tree, hdrop.find]
          split
          · rfl
          · exact h
        obtain ⟨m, hm, hmq⟩ := FileTree.child_of_suffix hq hne hq₀
        obtain ⟨x, hx⟩ := Option.ne_none_iff_exists'.mp hm
        have hchild : (m, x.kind) ∈ env.order w.tick (w.tree.children (n :: p)) :=
          hperm.mem_iff.mpr (FileTree.mem_children.mpr ⟨x, hx, rfl⟩)
        exact hpresent (hgone _ hchild q hmq)
      have hself : w₁.tree.find (n :: p) = some (.dir i) := by
        rw [World.tree, hdrop.find, if_neg fun h => (hps _ h).2 rfl]
        exact hi
      have hnochild : w₁.fs.tree.hasChild (n :: p) = false :=
        FileTree.hasChild_eq_false.mpr fun m =>
          hempty (m :: n :: p) (List.suffix_cons m _) (by simp)
      obtain ⟨j, -, hrm⟩ := Fs.rmdir_eq hf ⟨i, hself⟩
      rw [dif_pos hnochild] at hrm
      refine ⟨{ w₁ with fs := w₁.fs.unlinkAt j n p hnochild }, ?_, ?_, ?_, hclock⟩
      · rw [removeTree, Prog.run_bind, readDir_run, Fs.readDir_ok hf ⟨i, hi⟩]
        simp only [Except.mapError, Except.map]
        rw [Prog.run_bind, hrun]
        simp only [Prog.run_bind, rmdir_run, hrm, World.withFs_ok]
        rfl
      · refine ⟨ps ++ [n :: p], hdrop.append (.rmdir hrm (.nil _)), fun q hq => ?_⟩
        rcases List.mem_append.mp hq with hq | hq
        · exact (hps q hq).1
        · rw [List.mem_singleton.mp hq]
      · intro q hq
        by_cases hqe : q = n :: p
        · simp [World.tree, hqe]
        · simp only [World.tree, Fs.find_unlinkAt, if_neg hqe]
          exact hempty q hq hqe

theorem removeDirAll_run {n : N} {p : Path N} {w : World N} (hd : w.tree.IsDir (n :: p))
    (hfit : ∀ q, w.tree.find q ≠ none → Fit env.fits q) :
    ∃ w', (removeDirAll (n :: p) : SysProg N L _).run (World.exec env) w = (.ok (), w') ∧
      Cleared env.fits w w' (n :: p) := by
  have hb : (w.tree.below (n :: p)).card < w.fs.tree.nodes.keys.length + 1 + env.slack w.tick := by
    have := w.fs.tree.below_le (n :: p)
    rw [World.tree]
    omega
  obtain ⟨w', hrun, hcl⟩ := removeTree_run (L := L) _
    (w := { w with tick := w.tick + 1 }) hd hfit hb
  exact ⟨w', hrun, ⟨hcl.dropped, hcl.gone, hcl.clock⟩⟩

end StdFs

end Aks3.Lib
