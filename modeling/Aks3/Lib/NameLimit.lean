import Aks3.Lib.StdFsRun

/-!
# Paths with a name the filesystem refuses

A path is followed from its first component on, so what a call says about a path
with a refused name depends on the directories before that name: `notFound` as
long as one of them is missing, and the refusal only once they are all there.
`fitting fits p` is the last of them. `create_dir_all` on such a path makes them
all and then fails.
-/

set_option autoImplicit false

namespace Aks3.Lib

variable {N : Type} {fits : N → Bool}

instance (fits : N → Bool) (p : Path N) : Decidable (Fit fits p) :=
  inferInstanceAs (Decidable (∀ n ∈ p, fits n = true))

/-- The directory of the components before the first one that is refused. -/
def fitting (fits : N → Bool) : Path N → Path N
  | [] => []
  | n :: p => if Fit fits (n :: p) then n :: p else fitting fits p

theorem fitting_of_fit {p : Path N} (h : Fit fits p) : fitting fits p = p := by
  cases p with
  | nil => rfl
  | cons n p => rw [fitting, if_pos h]

theorem fitting_cons {n : N} {p : Path N} (h : ¬ Fit fits (n :: p)) :
    fitting fits (n :: p) = fitting fits p := by
  rw [fitting, if_neg h]

theorem fitting_suffix (fits : N → Bool) : ∀ p : Path N, fitting fits p <:+ p
  | [] => List.suffix_rfl
  | n :: p => by
      rw [fitting]
      split
      · exact List.suffix_rfl
      · exact (fitting_suffix fits p).trans (List.suffix_cons n p)

theorem fit_fitting (fits : N → Bool) : ∀ p : Path N, Fit fits (fitting fits p)
  | [] => fun _ hn => absurd hn List.not_mem_nil
  | n :: p => by
      rw [fitting]
      split
      · assumption
      · exact fit_fitting fits p

/-- Below a directory that fits, only what is below it decides. -/
theorem fitting_append {base : Path N} (hb : Fit fits base) :
    ∀ p : Path N, fitting fits (p ++ base) = fitting fits p ++ base
  | [] => fitting_of_fit hb
  | n :: p => by
      have hiff : Fit fits (n :: p ++ base) ↔ Fit fits (n :: p) := by
        rw [Fit, List.forall_mem_append]
        exact and_iff_left hb
      rw [List.cons_append, fitting, fitting, ← List.cons_append]
      split
      · rw [if_pos (hiff.mp ‹_›)]
      · rw [if_neg (hiff.not.mp ‹_›), fitting_append hb p]

namespace FileTree

variable [DecidableEq N]

/-- What a call reports about a path with a refused name. -/
def refusal (fits : N → Bool) (t : FileTree N) (p : Path N) : ErrorKind :=
  if t.IsDir (fitting fits p) then .invalidFilename else .notFound

theorem resolve_refused {t : FileTree N} : ∀ {p : Path N}, ¬ Fit fits p → t.Clear p →
    t.resolve fits p = .error (t.refusal fits p)
  | [], h, _ => absurd (fun _ hn => absurd hn List.not_mem_nil) h
  | n :: p, h, hc => by
      rw [resolve, refusal, fitting_cons h]
      by_cases hp : Fit fits p
      · have hn : fits n ≠ true := fun hn => h (List.forall_mem_cons.mpr ⟨hn, hp⟩)
        rw [resolve_clear hp hc.tail, fitting_of_fit hp]
        cases hf : t.find p with
        | none => simp [IsDir, hf]
        | some x =>
            cases x with
            | file i d => exact absurd hf (hc.tail p List.suffix_rfl i d)
            | dir i => simp [IsDir, hf, hn]
      · rw [resolve_refused hp hc.tail, refusal]

theorem locate_refused {t : FileTree N} {n : N} {p : Path N} (h : ¬ Fit fits (n :: p))
    (hc : t.Clear p) : t.locate fits n p = .error (t.refusal fits (n :: p)) := by
  rw [locate, refusal, fitting_cons h]
  by_cases hp : Fit fits p
  · have hn : fits n ≠ true := fun hn => h (List.forall_mem_cons.mpr ⟨hn, hp⟩)
    rw [resolve_clear hp hc, fitting_of_fit hp]
    cases hf : t.find p with
    | none => simp [IsDir, hf]
    | some x =>
        cases x with
        | file i d => exact absurd hf (hc p List.suffix_rfl i d)
        | dir i => simp [IsDir, hf, hn]
  · rw [resolve_refused hp hc, refusal]

/-- Every call fails alike on what is below a path with a refused name. -/
theorem resolve_below {t : FileTree N} {n : N} {p : Path N} (h : ¬ Fit fits p) (hc : t.Clear p) :
    t.resolve fits (n :: p) = .error (t.refusal fits p) := by
  rw [resolve, resolve_refused h hc]

end FileTree

namespace Fs

variable [DecidableEq N] {fs : Fs N} {n : N} {p : Path N}

theorem mkdir_refused (h : ¬ Fit fits (n :: p)) (hc : fs.tree.Clear p) :
    fs.mkdir fits (n :: p) = (.error (fs.tree.refusal fits (n :: p)), fs) := by
  have hl := FileTree.locate_refused h hc
  rw [mkdir]
  split <;> simp_all

theorem unlink_refused (h : ¬ Fit fits (n :: p)) (hc : fs.tree.Clear p) :
    fs.unlink fits (n :: p) = (.error (fs.tree.refusal fits (n :: p)), fs) := by
  have hl := FileTree.locate_refused h hc
  rw [unlink]
  split <;> simp_all

theorem readFile_below (h : ¬ Fit fits p) (hc : fs.tree.Clear p) :
    fs.readFile fits (n :: p) = .error (fs.tree.refusal fits p) := by
  simp only [readFile, FileTree.resolve_below h hc]

end Fs

namespace StdFs

variable {L : Type} [DecidableEq N] {env : Env N}

/-- **`create_dir_all` on a path with a refused name makes the directories before it and
fails.** -/
theorem createDirAll_refused {p : Path N} : ∀ {w : World N}, ¬ Fit env.fits p → w.tree.Clear p →
    ∃ w', (createDirAll p : SysProg N L _).run (World.exec env) w =
        (.error ErrorKind.invalidFilename.os, w') ∧
      Made env.fits w.fs (w.tree.missing (fitting env.fits p)) w'.fs ∧ w'.clock = w.clock := by
  induction p with
  | nil => exact fun {w} h => absurd (fun _ hn => absurd hn List.not_mem_nil) h
  | cons n p ih =>
      intro w h hc
      rw [createDirAll, Prog.run_bind, mkdir_run, Fs.mkdir_refused h hc.tail, World.withFs_error]
      by_cases hd : w.tree.IsDir (fitting env.fits (n :: p))
      · refine ⟨w, ?_, ?_, rfl⟩
        · have hr : w.fs.tree.refusal env.fits (n :: p) = .invalidFilename := if_pos hd
          rw [hr]
          rfl
        · rw [FileTree.missing_of_isDir hd]
          exact .nil _
      · have hr : w.fs.tree.refusal env.fits (n :: p) = .notFound := if_neg hd
        rw [hr]
        simp only [ErrorKind.kind_os, if_true, Prog.run_bind]
        rw [fitting_cons h]
        by_cases hp : Fit env.fits p
        · -- the refused name is the last: everything above it is made first
          obtain ⟨w₁, hrun, hmade, hclock⟩ := createDirAll_run (L := L) hp hc.tail
          have hp₁ : w₁.tree.IsDir p :=
            (hmade.isDir p).mpr (or_iff_not_imp_left.mpr fun hno =>
              FileTree.mem_missing.mpr ⟨List.suffix_rfl, hno⟩)
          have hc₁ : w₁.tree.Clear p := by
            intro q hq i d hf
            have hfile := hmade.fileAt q
            rw [← World.tree, FileTree.fileAt_eq_some.mpr ⟨i, hf⟩] at hfile
            obtain ⟨j, hj⟩ := FileTree.fileAt_eq_some.mp hfile.symm
            exact hc.tail q hq j d hj
          have hr₁ : w₁.fs.tree.refusal env.fits (n :: p) = .invalidFilename := by
            rw [FileTree.refusal, fitting_cons h, fitting_of_fit hp]
            exact if_pos hp₁
          refine ⟨w₁, ?_, ?_, hclock⟩
          · rw [hrun]
            simp only [Prog.run_bind, mkdir_run, Fs.mkdir_refused h hc₁, World.withFs_error, hr₁]
            rfl
          · rw [fitting_of_fit hp]
            exact hmade
        · obtain ⟨w₁, hrun, hmade, hclock⟩ := ih (w := w) hp hc.tail
          refine ⟨w₁, ?_, hmade, hclock⟩
          rw [hrun]
          rfl

end StdFs

end Aks3.Lib
