import Aks3.Engine.PathText
import Aks3.Engine.Sample
import Aks3.Lib.PowerLoss

/-!
# A commit makes its whole path durable

The directories a commit syncs are chosen before it makes any: the parent of the
destination, upwards to the first one that is there. Whatever `create_dir_all` makes after
that has its entry in one of them, because a path that is there has all its ancestors there
(`present_ancestor`), so what is made lies below the point where the choice stopped. With the
parent itself among them, the rename is durable as well (`commit_durable`).
-/

set_option autoImplicit false

namespace Aks3.Engine

open Lib

variable {env : Env OsName} {cwd : Path OsName} {w w' : World OsName}

/-! ## Where written paths lead -/

namespace PathText

variable {fits : OsName → Bool} {t t' : FileTree OsName}

theorem walk_of_lookup {p : PathText} {q : Path OsName} (h : p.lookup fits t cwd = .ok q) :
    p.walk fits t cwd = .ok q := by
  cases p with
  | empty => cases h
  | _ => exact h

@[simp] theorem walk_orCurDir (p : PathText) : p.orCurDir.walk fits t cwd = p.walk fits t cwd := by
  cases p <;> rfl

theorem lookup_orCurDir (p : PathText) : p.orCurDir.lookup fits t cwd = p.walk fits t cwd := by
  cases p <;> rfl

theorem walk_normal {p : PathText} {n : OsName} {q : Path OsName}
    (h : (p.join (.normal n)).walk fits t cwd = .ok q) :
    ∃ r, p.walk fits t cwd = .ok r ∧ q = n :: r := by
  rw [walk] at h
  split at h
  · cases h
  · rename_i r hr
    cases h
    exact ⟨r, hr, rfl⟩

theorem walk_parentDir {p : PathText} {q : Path OsName}
    (h : (p.join .parentDir).walk fits t cwd = .ok q) :
    ∃ r, p.walk fits t cwd = .ok r ∧ Fit fits r ∧ t.IsDir r ∧ q = r.tail := by
  rw [walk] at h
  split at h
  · cases h
  · rename_i r hr
    split at h
    · cases h
    · cases h
    · rename_i i hi
      cases h
      exact ⟨r, hr, FileTree.fit_of_resolve hi, ⟨i, FileTree.find_of_resolve hi⟩, rfl⟩

/-- A path leads to the same place while no directory goes. -/
theorem walk_mono (hd : ∀ q, t.IsDir q → t'.IsDir q) : ∀ {p : PathText} {q : Path OsName},
    p.walk fits t cwd = .ok q → p.walk fits t' cwd = .ok q
  | .empty, _, h | .curDir, _, h | .rootDir, _, h => h
  | .join p (.normal n), q, h => by
      obtain ⟨r, hr, rfl⟩ := walk_normal h
      rw [walk, walk_mono hd hr]
  | .join p .parentDir, q, h => by
      obtain ⟨r, hr, hf, hi, rfl⟩ := walk_parentDir h
      obtain ⟨i, hi⟩ := hd r hi
      rw [walk, walk_mono hd hr]
      simp only [FileTree.resolve_of_find hf hi]

theorem lookup_mono (hd : ∀ q, t.IsDir q → t'.IsDir q) {p : PathText} {q : Path OsName}
    (h : p.lookup fits t cwd = .ok q) : p.lookup fits t' cwd = .ok q := by
  have walked := walk_mono hd (walk_of_lookup h)
  cases p with
  | empty => cases h
  | _ => exact walked

/-- The path leads to something that is there. -/
def Present (fits : OsName → Bool) (t : FileTree OsName) (cwd : Path OsName)
    (p : PathText) : Prop :=
  ∃ q, p.walk fits t cwd = .ok q ∧ t.find q ≠ none

theorem present_parent {p : PathText} {c : Component} (h : (p.join c).Present fits t cwd) :
    p.Present fits t cwd := by
  obtain ⟨q, hq, there⟩ := h
  cases c with
  | normal n =>
      obtain ⟨r, hr, rfl⟩ := walk_normal hq
      obtain ⟨i, hi⟩ := FileTree.isDir_of_find there
      exact ⟨r, hr, by rw [hi]; exact Option.some_ne_none _⟩
  | parentDir =>
      obtain ⟨r, hr, -, ⟨i, hi⟩, -⟩ := walk_parentDir hq
      exact ⟨r, hr, by rw [hi]; exact Option.some_ne_none _⟩

/-- What is there has all its ancestors there. -/
theorem present_ancestor : ∀ {p a : PathText}, a ∈ p.ancestors → p.Present fits t cwd →
    a.Present fits t cwd
  | .empty, a, ha, h | .rootDir, a, ha, h => by
      rw [List.mem_singleton.mp ha]
      exact h
  | .curDir, a, ha, h => by
      rcases List.mem_cons.mp ha with rfl | ha
      · exact h
      · rw [List.mem_singleton.mp ha]
        exact h
  | .join p c, a, ha, h => by
      rcases List.mem_cons.mp ha with rfl | ha
      · exact h
      · exact present_ancestor ha (present_parent h)

theorem mem_ancestors_self (p : PathText) : p ∈ p.ancestors := by
  cases p <;> exact List.mem_cons_self

/-- The ancestors of a path up to one of them all have that one as ancestor. -/
theorem ancestors_split : ∀ {p a : PathText}, a ∈ p.ancestors →
    ∃ pre, p.ancestors = pre ++ a.ancestors ∧ ∀ b ∈ pre, a ∈ b.ancestors
  | .empty, a, ha | .rootDir, a, ha => by
      rw [List.mem_singleton.mp ha]
      exact ⟨[], rfl, by simp⟩
  | .curDir, a, ha => by
      rcases List.mem_cons.mp ha with rfl | ha
      · exact ⟨[], rfl, by simp⟩
      · rw [List.mem_singleton.mp ha]
        exact ⟨[.curDir], rfl, by simp [ancestors]⟩
  | .join p c, a, ha => by
      rcases List.mem_cons.mp ha with rfl | ha
      · exact ⟨[], rfl, by simp⟩
      · obtain ⟨pre, hpre, hall⟩ := ancestors_split ha
        refine ⟨.join p c :: pre, by rw [ancestors, hpre]; rfl, fun b hb => ?_⟩
        rcases List.mem_cons.mp hb with rfl | hb
        · exact List.mem_cons_of_mem _ ha
        · exact hall b hb

end PathText

open PathText (Present)

/-! ## What each call can have done -/

namespace PathProg

theorem atPlace_ok {α : Type} {fits : OsName → Bool} {p : PathText} {a : α}
    {call : Path OsName → Except IoError α × World OsName}
    (h : PathCall.atPlace fits cwd w p call = (.ok a, w')) :
    ∃ q, p.lookup fits w.tree cwd = .ok q ∧ call q = (.ok a, w') := by
  rw [PathCall.atPlace] at h
  split at h
  · cases h
  · rename_i q hq
    exact ⟨q, hq, h⟩

theorem withFs_eq_ok {r : Except ErrorKind Unit × Fs OsName} (h : w.withFs r = (.ok (), w')) :
    r = (.ok (), w'.fs) := by
  obtain ⟨x, fs⟩ := r
  cases x with
  | error e => cases h
  | ok u =>
      cases h
      rfl

theorem stat_ticked (env : Env OsName) (cwd : Path OsName) (w : World OsName) (p : PathText) :
    ((ask (.stat p)).run (PathCall.exec env cwd) w).2.fs = w.fs := by
  change (PathCall.exec env cwd (.stat p) w).2.fs = w.fs
  simp only [PathCall.exec, PathCall.atPlace]
  cases p.lookup env.fits w.tree cwd <;> rfl

theorem existsOr_spec {p : PathText} {b : Bool}
    (h : (existsOr p.orCurDir).run (PathCall.exec env cwd) w = (b, w')) :
    w'.fs = w.fs ∧ (b = true → p.Present env.fits w.tree cwd) := by
  have same := stat_ticked env cwd w p.orCurDir
  rw [existsOr, Prog.run_bind] at h
  generalize hs : (ask (.stat p.orCurDir)).run (PathCall.exec env cwd) w = y at h same
  obtain ⟨r, w₁⟩ := y
  cases r with
  | error e =>
      cases h
      exact ⟨same, by simp⟩
  | ok s =>
      cases h
      refine ⟨same, fun _ => ?_⟩
      obtain ⟨q, hq, hstat⟩ := atPlace_ok hs
      rw [PathText.lookup_orCurDir] at hq
      refine ⟨q, hq, fun none => ?_⟩
      obtain ⟨e, he⟩ := Fs.stat_error env.fits none
      simp only [World.exec, he] at hstat
      cases hstat

/-- A path of the list is chosen unless an earlier one is there. -/
theorem syncLoop_spec : ∀ {l : List PathText} {chain : List PathText} {w w' : World OsName},
    (syncLoop l).run (PathCall.exec env cwd) w = (chain, w') →
    w'.fs = w.fs ∧ ∀ pre s post, l = pre ++ s :: post →
      (∀ a ∈ pre, ¬ a.Present env.fits w.tree cwd) → s.orCurDir ∈ chain
  | [], chain, w, w', h => by
      cases h
      exact ⟨rfl, fun pre s post hl => by simp at hl⟩
  | a :: l, chain, w, w', h => by
      generalize hb : (existsOr a.orCurDir).run (PathCall.exec env cwd) w = y
      obtain ⟨b, w₁⟩ := y
      obtain ⟨hfs, there⟩ := existsOr_spec hb
      rw [syncLoop_run l hb] at h
      cases b with
      | true =>
          cases h
          refine ⟨hfs, fun pre s post hl absent => ?_⟩
          cases pre with
          | nil =>
              cases hl
              exact List.mem_singleton_self _
          | cons a' pre =>
              cases hl
              exact absurd (there rfl) (absent a List.mem_cons_self)
      | false =>
          generalize hrest : (syncLoop l).run (PathCall.exec env cwd) w₁ = y at h
          obtain ⟨rest, w₂⟩ := y
          cases h
          obtain ⟨hfs', mem⟩ := syncLoop_spec hrest
          have htree : w₁.tree = w.tree := by rw [World.tree, hfs]
          refine ⟨hfs'.trans hfs, fun pre s post hl absent => ?_⟩
          cases pre with
          | nil =>
              cases hl
              exact List.mem_cons_self
          | cons a' pre =>
              cases hl
              refine List.mem_cons_of_mem _ (mem pre s post rfl fun b hb => ?_)
              rw [htree]
              exact absent b (List.mem_cons_of_mem _ hb)

/-- The directory itself is chosen, and so is the parent of every ancestor that is missing. -/
theorem dirsToSync_spec {dir : PathText} {chain : List PathText}
    (h : (dirsToSync dir).run (PathCall.exec env cwd) w = (chain, w')) :
    w'.fs = w.fs ∧ dir.orCurDir ∈ chain ∧ ∀ r c, .join r c ∈ dir.ancestors →
      ¬ (r.join c).Present env.fits w.tree cwd → r.orCurDir ∈ chain := by
  obtain ⟨hfs, mem⟩ := syncLoop_spec h
  have first : ∀ p : PathText, ∃ post, p.ancestors = p :: post := fun p => by
    cases p <;> exact ⟨_, rfl⟩
  refine ⟨hfs, ?_, fun r c hr absent => ?_⟩
  · obtain ⟨post, hpost⟩ := first dir
    exact mem [] dir post hpost (by simp)
  · obtain ⟨pre, hpre, above⟩ := PathText.ancestors_split hr
    obtain ⟨post, hpost⟩ := first r
    refine mem (pre ++ [r.join c]) r post ?_ fun a ha there => ?_
    · rw [hpre, PathText.ancestors, hpost, List.append_assoc]
      rfl
    · rcases List.mem_append.mp ha with ha | ha
      · exact absent (PathText.present_ancestor (above a ha) there)
      · rw [List.mem_singleton.mp ha] at there
        exact absent there

/-! ## Making the directories -/

/-- A `mkdir` that succeeds names a new entry of a directory that is there. -/
theorem mkdir_spec {p : PathText} (hcwd : w.tree.IsDir cwd)
    (h : (ask (.mkdir p)).run (PathCall.exec env cwd) w = (.ok (), w')) :
    ∃ (r : PathText) (n : OsName) (q : Path OsName), p = r.join (.normal n) ∧
      r.walk env.fits w.tree cwd = .ok q ∧
      w.tree.find (n :: q) = none ∧ w.fs.mkdir env.fits (n :: q) = (.ok (), w'.fs) := by
  obtain ⟨dst, hdst, hcall⟩ := atPlace_ok h
  have made := withFs_eq_ok hcall
  have free : w.tree.find dst = none := by
    rcases Fs.mkdir_cases env.fits w.fs dst with ⟨n, q, i, hp, hx, rfl, -, -, free, -⟩ | ⟨e, he⟩
    · exact free
    · rw [made] at he
      cases he
  have absent : ¬ w.tree.IsDir dst := by
    rintro ⟨i, hi⟩
    rw [free] at hi
    cases hi
  cases p with
  | empty => cases hdst
  | curDir =>
      cases hdst
      exact absurd hcwd absent
  | rootDir =>
      cases hdst
      exact absurd ⟨0, rfl⟩ absent
  | join r c =>
      cases c with
      | normal n =>
          obtain ⟨q, hq, rfl⟩ := PathText.walk_normal hdst
          exact ⟨r, n, q, rfl, hq, free, made⟩
      | parentDir =>
          obtain ⟨q, -, -, hd, rfl⟩ := PathText.walk_parentDir hdst
          exact absurd (FileTree.isDir_of_suffix hd (List.tail_suffix q)) absent

theorem mkdir_error {p : PathText} {e : IoError}
    (h : (ask (.mkdir p)).run (PathCall.exec env cwd) w = (.error e, w')) : w'.fs = w.fs := by
  change PathCall.exec env cwd (.mkdir p) w = _ at h
  simp only [PathCall.exec, PathCall.atPlace] at h
  split at h
  · cases h
    rfl
  · rename_i q hq
    rcases Fs.mkdir_cases env.fits w.fs q with ⟨n, q, i, hp, hx, rfl, -, -, -, he⟩ | ⟨e, he⟩
    · simp only [World.exec, he] at h
      cases h
    · simp only [World.exec, he] at h
      cases h
      rfl

theorem orPresent_spec {p : PathText} {e : IoError} {r : Except IoError Unit}
    (h : (orPresent p e).run (PathCall.exec env cwd) w = (r, w')) : w'.fs = w.fs := by
  rw [orPresent] at h
  split at h
  · have same := stat_ticked env cwd w p
    rw [Prog.run_bind] at h
    generalize (ask (.stat p)).run (PathCall.exec env cwd) w = y at h same
    obtain ⟨s, w₁⟩ := y
    rw [← same]
    cases s with
    | error _ =>
        cases h
        rfl
    | ok s =>
        dsimp only at h
        split at h <;> cases h <;> rfl
  · cases h
    rfl

/-- Directories were made, each of them a missing path of the list. -/
def Makes (env : Env OsName) (cwd : Path OsName) (l : List PathText) (w w' : World OsName) : Prop :=
  ∃ ps, Made env.fits w.fs ps w'.fs ∧ ∀ q ∈ ps, q ≠ [] ∧ ∃ r c, .join r c ∈ l ∧
    ¬ (r.join c).Present env.fits w.tree cwd ∧ r.walk env.fits w'.tree cwd = .ok q.tail

theorem Makes.of_fs {l : List PathText} (h : w'.fs = w.fs) : Makes env cwd l w w' :=
  ⟨[], h ▸ .nil _, by simp⟩

theorem Makes.congr {l : List PathText} {w₁ w₁' : World OsName} (h : Makes env cwd l w w')
    (hw : w₁.fs = w.fs) (hw' : w₁'.fs = w'.fs) : Makes env cwd l w₁ w₁' := by
  obtain ⟨ps, made, spec⟩ := h
  rw [World.tree, World.tree, ← hw, ← hw'] at spec
  exact ⟨ps, hw ▸ hw' ▸ made, spec⟩

theorem Makes.mono {l l' : List PathText} (h : Makes env cwd l w w') (hl : l ⊆ l') :
    Makes env cwd l' w w' := by
  obtain ⟨ps, made, spec⟩ := h
  refine ⟨ps, made, fun q hq => ?_⟩
  obtain ⟨hne, r, c, mem, rest⟩ := spec q hq
  exact ⟨hne, r, c, hl mem, rest⟩

theorem Makes.isDir {l : List PathText} (h : Makes env cwd l w w') {q : Path OsName}
    (hq : w.tree.IsDir q) : w'.tree.IsDir q := by
  obtain ⟨ps, made, -⟩ := h
  exact (made.isDir q).mpr (.inl hq)

theorem Makes.find {l : List PathText} (h : Makes env cwd l w w') {q : Path OsName}
    (hq : w.tree.find q ≠ none) : w'.tree.find q ≠ none := by
  intro gone
  obtain ⟨file, dir⟩ := FileTree.find_eq_none.mp gone
  refine hq (FileTree.find_eq_none.mpr ⟨?_, fun hd => dir (h.isDir hd)⟩)
  obtain ⟨ps, made, -⟩ := h
  rw [← made.fileAt]
  exact file

theorem Makes.present {l : List PathText} (h : Makes env cwd l w w') {p : PathText}
    (hp : p.Present env.fits w.tree cwd) : p.Present env.fits w'.tree cwd := by
  obtain ⟨q, hq, there⟩ := hp
  exact ⟨q, PathText.walk_mono (fun _ => h.isDir) hq, h.find there⟩

/-- One more directory, made after the others. -/
theorem Makes.mkdir {l : List PathText} {p : PathText} {w₁ : World OsName}
    (h : Makes env cwd l w w₁) (hcwd : w₁.tree.IsDir cwd) (hp : p ∈ l)
    (hmk : (ask (.mkdir p)).run (PathCall.exec env cwd) w₁ = (.ok (), w')) :
    Makes env cwd l w w' := by
  obtain ⟨r, n, q, rfl, hq, free, last⟩ := mkdir_spec hcwd hmk
  have absent : ¬ (r.join (.normal n)).Present env.fits w.tree cwd := by
    intro there
    obtain ⟨q', hq', there⟩ := h.present there
    obtain ⟨r', hr', rfl⟩ := PathText.walk_normal hq'
    rw [hq] at hr'
    cases hr'
    exact there free
  have grown : ∀ d, w₁.tree.IsDir d → w'.tree.IsDir d :=
    fun d hd => ((Made.single last).isDir d).mpr (.inl hd)
  obtain ⟨ps, made, spec⟩ := h
  refine ⟨ps ++ [n :: q], made.append (.single last), fun d hd => ?_⟩
  rcases List.mem_append.mp hd with hd | hd
  · obtain ⟨hne, s, c, mem, missing, walked⟩ := spec d hd
    exact ⟨hne, s, c, mem, missing, PathText.walk_mono grown walked⟩
  · rw [List.mem_singleton.mp hd]
    exact ⟨List.cons_ne_nil n q, r, _, hp, absent, PathText.walk_mono grown hq⟩

theorem createDirWith_spec {up : PathProg (Except IoError Unit)} {p : PathText}
    (hup : ∀ {w w' : World OsName}, w.tree.IsDir cwd →
      up.run (PathCall.exec env cwd) w = (.ok (), w') → Makes env cwd p.ancestors w w')
    (hcwd : w.tree.IsDir cwd)
    (h : (createDirWith up p).run (PathCall.exec env cwd) w = (.ok (), w')) :
    Makes env cwd p.ancestors w w' := by
  have self := PathText.mem_ancestors_self p
  rw [createDirWith, Prog.run_bind] at h
  generalize hfirst : (ask (.mkdir p)).run (PathCall.exec env cwd) w = y at h
  obtain ⟨r, w₁⟩ := y
  cases r with
  | ok u =>
      cases h
      exact (Makes.of_fs rfl).mkdir hcwd self hfirst
  | error e =>
      have same := mkdir_error hfirst
      have hcwd₁ : w₁.tree.IsDir cwd := by rwa [World.tree, same]
      dsimp only at h
      split at h
      · rw [Prog.run_bind] at h
        generalize hsecond : up.run (PathCall.exec env cwd) w₁ = y at h
        obtain ⟨r, w₂⟩ := y
        cases r with
        | error e => cases h
        | ok u =>
            have above := (hup hcwd₁ hsecond).congr same.symm rfl
            dsimp only at h
            rw [Prog.run_bind] at h
            generalize hthird : (ask (.mkdir p)).run (PathCall.exec env cwd) w₂ = y at h
            obtain ⟨r, w₃⟩ := y
            cases r with
            | ok u =>
                cases h
                exact above.mkdir (above.isDir hcwd) self hthird
            | error e =>
                exact above.congr rfl ((orPresent_spec h).trans (mkdir_error hthird))
      · exact Makes.of_fs ((orPresent_spec h).trans same)

/-- `create_dir_all` makes nothing but missing ancestors of its path, or the path itself. -/
theorem createDirAll_spec : ∀ {p : PathText} {w w' : World OsName}, w.tree.IsDir cwd →
    (createDirAll p).run (PathCall.exec env cwd) w = (.ok (), w') → Makes env cwd p.ancestors w w'
  | .empty, w, w', _, h | .rootDir, w, w', _, h => by
      cases h
      exact Makes.of_fs rfl
  | .curDir, w, w', hcwd, h => by
      refine createDirWith_spec (fun _ hup => ?_) hcwd h
      cases hup
      exact Makes.of_fs rfl
  | .join p c, w, w', hcwd, h =>
      createDirWith_spec (fun hcwd hup => (createDirAll_spec hcwd hup).mono
        (List.subset_cons_self _ _)) hcwd h

/-! ## Syncing and renaming -/

/-- Every directory of the list is settled afterwards. -/
theorem syncDirs_spec : ∀ {l : List PathText} {w w' : World OsName}, w.fs.Wf →
    (syncDirs l).run.run (PathCall.exec env cwd) w = (.ok (), w') →
    w.fs.Flushed w'.fs ∧ ∀ s ∈ l, ∀ q, s.walk env.fits w.tree cwd = .ok q → w.tree.IsDir q →
      w'.fs.Settled q
  | [], w, w', _, h => by
      cases h
      exact ⟨.refl _, by simp⟩
  | s :: l, w, w', hw, h => by
      obtain ⟨i, w₁, hopen, h⟩ := Prog.ok_of_bind h
      obtain ⟨q, hq, hcall⟩ := atPlace_ok hopen
      obtain ⟨hi, rfl⟩ := Prod.mk.inj hcall
      obtain ⟨rest, settled⟩ := syncDirs_spec (w := { w with fs := w.fs.syncDir i })
        ((Fs.flushed_syncDir w.fs i).wf hw) h
      refine ⟨(Fs.flushed_syncDir w.fs i).trans rest, fun s' hs' q' hq' hd => ?_⟩
      rcases List.mem_cons.mp hs' with rfl | hs'
      · rw [PathText.walk_of_lookup hq] at hq'
        cases hq'
        obtain ⟨j, hj⟩ := hd
        refine rest.settled q (Fs.settled_syncDir hw ?_)
        rw [hj]
        change (w.fs.openDir env.fits q).mapError ErrorKind.os = _ at hi
        rw [Fs.openDir] at hi
        split at hi
        · cases hi
        · rename_i x hx
          cases hi
          have found := FileTree.find_of_resolve hx
          rw [hj] at found
          cases found
          rfl
      · exact settled s' hs' q' hq' hd

theorem rename_spec {staged dest : PathText}
    (h : (ask (.rename staged dest)).run (PathCall.exec env cwd) w = (.ok (), w')) :
    ∃ src dst, staged.lookup env.fits w.tree cwd = .ok src ∧
      dest.lookup env.fits w.tree cwd = .ok dst ∧
      w.fs.rename env.fits src dst = (.ok (), w'.fs) := by
  obtain ⟨src, hsrc, h⟩ := atPlace_ok h
  obtain ⟨dst, hdst, h⟩ := atPlace_ok h
  exact ⟨src, dst, hsrc, hdst, withFs_eq_ok h⟩

/-- The parent of a file's path is the path of its directory. -/
theorem lookup_file {t : FileTree OsName} {fits : OsName → Bool} {dest : PathText}
    {dst : Path OsName} (hcwd : t.IsDir cwd) (h : dest.lookup fits t cwd = .ok dst)
    (hd : ¬ t.IsDir dst) : ∃ (r : PathText) (n : OsName) (q : Path OsName),
      dest = r.join (.normal n) ∧ dst = n :: q ∧ r.walk fits t cwd = .ok q := by
  cases dest with
  | empty => cases h
  | curDir =>
      cases h
      exact absurd hcwd hd
  | rootDir =>
      cases h
      exact absurd ⟨0, rfl⟩ hd
  | join r c =>
      cases c with
      | normal n =>
          obtain ⟨q, hq, rfl⟩ := PathText.walk_normal h
          exact ⟨r, n, q, rfl, rfl, hq⟩
      | parentDir =>
          obtain ⟨q, -, -, hq, rfl⟩ := PathText.walk_parentDir h
          exact absurd (FileTree.isDir_of_suffix hq (List.tail_suffix q)) hd

/-- The steps of a commit that got as far as its rename. -/
theorem publish_spec {staged dest : PathText} {chain : List PathText}
    (h : (publish staged dest).run.run (PathCall.exec env cwd) w = (.ok chain, w')) :
    ∃ (w₁ w₂ w₃ : World OsName), (ask (.syncFile staged)).run
      (PathCall.exec env cwd) w = (.ok (), w₁) ∧
      (dirsToSync dest.parentDir).run (PathCall.exec env cwd) w₁ = (chain, w₂) ∧
      (createDirAll dest.parentDir).run (PathCall.exec env cwd) w₂ = (.ok (), w₃) ∧
      (ask (.rename staged dest)).run (PathCall.exec env cwd) w₃ = (.ok (), w') := by
  obtain ⟨_, w₁, hsync, h⟩ := Prog.ok_of_bind h
  generalize hchain : (dirsToSync dest.parentDir).run (PathCall.exec env cwd) w₁ = y
  obtain ⟨toSync, w₂⟩ := y
  replace h := (Prog.run_bind_lift hchain).symm.trans h
  obtain ⟨_, w₃, hmade, h⟩ := Prog.ok_of_bind h
  obtain ⟨_, w₄, hmoved, h⟩ := Prog.ok_of_bind h
  cases h
  exact ⟨w₁, w₂, w₃, hsync, hchain, hmade, hmoved⟩

/-- A commit that succeeds has published and synced. -/
theorem commit_spec {staged dest : PathText}
    (h : ((commit staged dest).run.run (PathCall.exec env cwd) w) = (.ok (), w')) :
    ∃ (chain : List PathText) (w₁ : World OsName),
      (publish staged dest).run.run (PathCall.exec env cwd) w = (.ok chain, w₁) ∧
      (syncDirs chain).run.run (PathCall.exec env cwd) w₁ = (.ok (), w') := by
  rw [commit, Prog.run_mk, Prog.run_bind] at h
  generalize (publish staged dest).run.run (PathCall.exec env cwd) w = y at h
  obtain ⟨r, w₁⟩ := y
  cases r with
  | error e =>
      dsimp only at h
      rw [Prog.run_bind] at h
      cases h
  | ok chain => exact ⟨chain, w₁, rfl, h⟩

/-! ## What survives -/

/-- The file is renamed, its bytes on disk, and every directory that was there is still linked
from the root. -/
theorem publish_durable {staged dest : PathText} {chain : List PathText} {src : Path OsName}
    {bytes : Bytes} (hw : w.fs.Wf) (hl : w.fs.Linked) (hcwd : w.tree.IsDir cwd)
    (hsrc : staged.lookup env.fits w.tree cwd = .ok src) (hf : w.tree.fileAt src = some bytes)
    (h : (publish staged dest).run.run (PathCall.exec env cwd) w = (.ok chain, w')) :
    w'.fs.Wf ∧ (∃ (r : PathText) (n : OsName) (q : Path OsName), dest = r.join (.normal n) ∧
        r.orCurDir ∈ chain ∧ r.walk env.fits w'.tree cwd = .ok q ∧ w'.tree.IsDir q ∧
        w'.tree.fileAt (n :: q) = some bytes ∧ w'.fs.Synced (n :: q)) ∧
      ∀ p, w'.tree.IsDir p → w'.fs.EntryDurable p ∨ ∃ n q, ∃ r : PathText, p = n :: q ∧
        r.orCurDir ∈ chain ∧ r.walk env.fits w'.tree cwd = .ok q := by
  obtain ⟨w₁, w₂, w₃, hsync, hchain, hmade, hmoved⟩ := publish_spec h
  -- the bytes first, with the tree as it was
  obtain ⟨src', hsrc', hcall⟩ := atPlace_ok hsync
  rw [hsrc] at hsrc'
  cases hsrc'
  have synced : (w.fs.syncFile env.fits src) = (.ok (), w₁.fs) := withFs_eq_ok hcall
  have tree₁ : w₁.tree = w.tree := by
    have := Fs.tree_syncFile env.fits w.fs src
    rwa [synced] at this
  have wf₁ : w₁.fs.Wf := by
    have := (Fs.change_syncFile env.fits w.fs src).wf hw
    rwa [synced] at this
  have onDisk : w₁.fs.Synced src := by
    have := Fs.synced_syncFile (congrArg Prod.fst synced)
    rwa [synced] at this
  -- then the directories to sync are chosen, and those that are missing made
  obtain ⟨fs₂, self, chosen⟩ := dirsToSync_spec hchain
  rw [tree₁] at chosen
  have tree₂ : w₂.tree = w.tree := by rw [World.tree, fs₂, ← tree₁]
  have made := createDirAll_spec (tree₂ ▸ hcwd) hmade
  have grown : ∀ q, w.tree.IsDir q → w₃.tree.IsDir q := fun q hq => made.isDir (tree₂ ▸ hq)
  obtain ⟨ps, made, spec⟩ := made
  rw [tree₂] at spec
  rw [fs₂] at made
  -- and the rename
  obtain ⟨src', dst, hsrc', hdst, moved⟩ := rename_spec hmoved
  rw [PathText.lookup_mono grown hsrc] at hsrc'
  cases hsrc'
  have dirs : ∀ q, w'.tree.IsDir q ↔ w₃.tree.IsDir q := fun q => by
    have := Fs.isDir_rename env.fits w₃.fs src dst q
    rwa [moved] at this
  have free : ¬ w₃.tree.IsDir dst ∧ w₃.tree.IsDir dst.tail := by
    rcases Fs.rename_cases env.fits w₃.fs src dst with
      ⟨n, p, i, m, q, j, a, d, fs', rfl, rfl, -, free, -, dir, -⟩ | ⟨e, he⟩
    · exact ⟨free, j, dir⟩
    · rw [moved] at he
      cases he
  have file₃ : w₃.tree.fileAt src = some bytes := by
    rw [World.tree, made.fileAt, ← World.tree, tree₁, hf]
  refine ⟨?_, ?_, fun p hp => ?_⟩
  · have := (Fs.change_rename env.fits w₃.fs src dst).wf (made.wf wf₁)
    rwa [moved] at this
  · obtain ⟨r, n, q, rfl, rfl, hq⟩ := lookup_file (grown cwd hcwd) hdst free.1
    refine ⟨r, n, q, rfl, ?_, PathText.walk_mono (fun d hd => (dirs d).mpr hd) hq,
      (dirs q).mpr free.2, ?_, ?_⟩
    · have twice : (r.join (.normal n)).parentDir.orCurDir = r.orCurDir := by
        cases r <;> rfl
      rwa [twice] at self
    · have := Fs.fileAt_rename env.fits w₃.fs src (n :: q) (n :: q)
      rw [moved] at this
      rw [World.tree, this, if_pos rfl, if_pos rfl, file₃]
    · have := Fs.synced_rename ((made.kept wf₁).synced src (Set.notMem_empty _) onDisk)
        (congrArg Prod.fst moved)
      rwa [moved] at this
  · by_cases hps : p ∈ ps
    · obtain ⟨hne, r, c, mem, missing, walked⟩ := spec p hps
      obtain ⟨n, q, rfl⟩ := List.exists_cons_of_ne_nil hne
      exact .inr ⟨n, q, r, rfl, chosen r c mem missing,
        PathText.walk_mono (fun d hd => (dirs d).mpr hd) walked⟩
    · have hp₃ := (dirs p).mp hp
      have old : w.tree.IsDir p := by
        have := ((made.isDir p).mp hp₃).resolve_right hps
        rwa [← World.tree, tree₁] at this
      have linked₁ : w₁.fs.EntryDurable p := by
        have := Fs.entryDurable_syncFile env.fits (p := src) (hl p old)
        rwa [synced] at this
      have notSrc : p ≠ src := by
        rintro rfl
        rw [FileTree.fileAt_of_isDir hp₃] at file₃
        cases file₃
      have notDst : p ≠ dst := by
        rintro rfl
        exact free.1 hp₃
      have kept := Fs.entryDurable_rename (made.wf wf₁) env.fits
        (made.entryDurable wf₁ linked₁ hps) notSrc notDst
      rw [moved] at kept
      exact .inl kept

/-- **A commit that succeeds is durable.** Whatever a later power loss leaves, the destination
leads to a file with exactly the staged bytes, its ancestors are there, and every directory is
durably linked again. -/
theorem commit_durable (env : Env OsName) (cwd : Path OsName) (w : World OsName)
    (staged dest : PathText) (src : Path OsName) (bytes : Bytes) (hw : w.fs.Wf)
    (hl : w.fs.Linked) (hcwd : w.tree.IsDir cwd)
    (hsrc : staged.lookup env.fits w.tree cwd = .ok src) (hf : w.tree.fileAt src = some bytes)
    (hok : ((commit staged dest).run.run (PathCall.exec env cwd) w).1 = .ok ()) :
    let w' := ((commit staged dest).run.run (PathCall.exec env cwd) w).2
    w'.fs.Wf ∧ w'.fs.Linked ∧ ∃ dst, ∀ t, w'.fs.PowerLoss t →
      dest.lookup env.fits t cwd = .ok dst ∧ t.fileAt dst = some bytes ∧
        ∀ q, q <:+ dst.tail → t.IsDir q := by
  intro w'
  obtain ⟨chain, w₁, hpub, hflush⟩ := commit_spec (Prod.ext hok rfl : _ = (_, w'))
  obtain ⟨wf₁, ⟨r, n, p, rfl, hr, hwalk, hdir, hfile, hsync⟩, dirs⟩ :=
    publish_durable hw hl hcwd hsrc hf hpub
  obtain ⟨flushed, settled⟩ := syncDirs_spec wf₁ hflush
  have wf' := flushed.wf wf₁
  have tree' : w'.tree = w₁.tree := flushed.tree
  have entry : ∀ (r : PathText) (n : OsName) (q : Path OsName), r.orCurDir ∈ chain →
      r.walk env.fits w₁.tree cwd = .ok q → w₁.tree.IsDir q → w'.fs.EntryDurable (n :: q) := by
    intro r n q hr hq hd
    refine Fs.entryDurable_of_settled wf' (flushed.tree.symm ▸ hd) ?_ n
    exact settled _ hr q ((PathText.walk_orCurDir r).trans hq) hd
  have linked : w'.fs.Linked := by
    intro q hq
    rw [← World.tree, tree'] at hq
    rcases dirs q hq with h | ⟨m, q, r, rfl, hr, hq'⟩
    · exact flushed.entry _ h
    · exact entry r m q hr hq' (FileTree.isDir_tail hq)
  have dirP : w'.tree.IsDir p := tree' ▸ hdir
  have durable : w'.fs.Durable (n :: p) :=
    Fs.durable_cons n (linked.durable dirP) (entry r n p hr hwalk hdir)
  have onDisk : w'.fs.Synced (n :: p) := by
    intro i d hi
    rw [flushed.synced]
    exact hsync i d (by rw [← hi, flushed.tree])
  refine ⟨wf', linked, n :: p, fun t ht => ⟨?_, ?_, fun q hq => ?_⟩⟩
  · have survive : ∀ q, w'.tree.IsDir q → t.IsDir q := fun q hq => ht.isDir (linked.durable hq) hq
    have walked : r.walk env.fits w'.tree cwd = .ok p := by rw [tree', hwalk]
    change (r.join (.normal n)).walk env.fits t cwd = _
    rw [PathText.walk, PathText.walk_mono survive walked]
  · exact ht.fileAt durable onDisk (by rw [flushed.tree]; exact hfile)
  · have hd := FileTree.isDir_of_suffix dirP hq
    exact ht.isDir (linked.durable hd) hd

/-- A file with one byte, staged in the root. -/
def stagedWorld : World OsName :=
  ⟨((Fs.empty.createNew sampleEnv.fits [utf8 "s"]).2.append sampleEnv.fits [7] [utf8 "s"]).2, 0, 0⟩

theorem wf_stagedWorld : stagedWorld.fs.Wf :=
  (Fs.change_append _ _ _ _).wf ((Fs.change_createNew _ _ _).wf Fs.wf_empty)

theorem linked_stagedWorld : stagedWorld.fs.Linked := by
  intro p hp
  have hp := (Fs.isDir_createNew _ _ _ p).mp ((Fs.isDir_append _ _ _ _ p).mp hp)
  cases p with
  | nil => trivial
  | cons n p =>
      obtain ⟨i, hi⟩ := hp
      cases hi

/-- The relative path `a/../b/x`, of which only the current directory is there. -/
def newPath : PathText :=
  (((PathText.empty.join (.normal (utf8 "a"))).join .parentDir).join (.normal (utf8 "b"))).join
    (.normal (utf8 "x"))

theorem commit_durable_new : ∃ dst, ∀ t,
    ((commit (.join .empty (.normal (utf8 "s"))) newPath).run.run
      (PathCall.exec sampleEnv []) stagedWorld).2.fs.PowerLoss t →
      newPath.lookup sampleEnv.fits t [] = .ok dst ∧ t.fileAt dst = some [7] ∧
        ∀ q, q <:+ dst.tail → t.IsDir q :=
  (commit_durable sampleEnv [] stagedWorld (.join .empty (.normal (utf8 "s"))) newPath [utf8 "s"]
    [7] wf_stagedWorld linked_stagedWorld ⟨0, rfl⟩ rfl rfl rfl).2.2

end PathProg

end Aks3.Engine
