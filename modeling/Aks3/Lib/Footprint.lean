import Aks3.Lib.StdFsRun
import Aks3.Lib.Visits

/-!
# What a call leaves alone

A call changes the node at a path only if it names the path. Most calls change nothing that is
there (`Spoils` lists the others), and most make nothing that is not (`Makes`). So what a program
can do to a path is read off the calls it can come to.
-/

set_option autoImplicit false

namespace Aks3.Lib

variable {N L : Type}

namespace Sys

/-- The call may put something at a free path. -/
def Makes (q : Path N) : Sys N L → Prop
  | .mkdir p | .createNew p | .rename _ p => p = q
  | _ => False

/-- The call may change or take away what is at a path. -/
def Spoils (q : Path N) : Sys N L → Prop
  | .rmdir p | .unlink p | .append p _ => p = q
  | .rename p p' => p = q ∨ p' = q
  | _ => False

end Sys

namespace World

variable [DecidableEq N] {w : World N} {q : Path N}

theorem find_exec_none (env : Env N) {o : Sys N L} (ho : ¬ o.Makes q) (h : w.tree.find q = none) :
    (World.exec env o w).2.tree.find q = none := by
  cases o with
  | mkdir p =>
      change (w.fs.mkdir env.fits p).2.tree.find q = none
      rcases Fs.mkdir_cases env.fits w.fs p with ⟨n, r, i, hp, hx, rfl, -, -, -,
        he⟩ | ⟨e, he⟩ <;> rw [he]
      · rw [Fs.find_link, if_neg (Ne.symm ho)]
        exact h
      · exact h
  | createNew p =>
      change (w.fs.createNew env.fits p).2.tree.find q = none
      rcases Fs.createNew_cases env.fits w.fs p with ⟨n, r, i, hp, hx, rfl, -, -, -,
        he⟩ | ⟨e, he⟩ <;> rw [he]
      · rw [Fs.find_link, if_neg (Ne.symm ho)]
        exact h
      · exact h
  | rmdir p =>
      change (w.fs.rmdir env.fits p).2.tree.find q = none
      rcases Fs.rmdir_cases env.fits w.fs p with ⟨n, r, i, a, hc, -, -, -, he⟩ | ⟨e, he⟩ <;> rw [he]
      · rw [Fs.find_unlinkAt]
        split
        · rfl
        · exact h
      · exact h
  | unlink p =>
      change (w.fs.unlink env.fits p).2.tree.find q = none
      rcases Fs.unlink_cases env.fits w.fs p with
        ⟨n, r, i, a, d, hc, -, -, -, he⟩ | ⟨e, he⟩ <;> rw [he]
      · rw [Fs.find_unlinkAt]
        split
        · rfl
        · exact h
      · exact h
  | append p bs =>
      change (w.fs.append env.fits bs p).2.tree.find q = none
      rcases Fs.append_cases env.fits w.fs bs p with ⟨a, d, fs', hp, hr, he⟩ | ⟨e, he⟩ <;> rw [he]
      · rw [hr.find, if_neg]
        · exact h
        · rintro rfl
          exact Option.some_ne_none _ (hp.symm.trans h)
      · exact h
  | rename src dst =>
      change (w.fs.rename env.fits src dst).2.tree.find q = none
      rcases Fs.rename_cases env.fits w.fs src dst with
        ⟨n, p, i, m, r, k, a, d, fs', -, rfl, -, -, -, -, -, hm, he⟩ | ⟨e, he⟩ <;> rw [he]
      · rw [hm.find, if_neg (Ne.symm ho)]
        split
        · rfl
        · exact h
      · exact h
  | syncFile p =>
      change (w.fs.syncFile env.fits p).2.tree.find q = none
      rwa [Fs.tree_syncFile]
  | stat _ => exact h
  | openDir _ => exact h
  | syncDir _ => exact h
  | readFile _ => exact h
  | seek _ _ => exact h
  | readDir _ => exact h
  | budget => exact h
  | now => exact h
  | uuid => exact h
  | recv => exact h
  | lock _ _ => exact h

theorem find_exec_some (env : Env N) {o : Sys N L} (ho : ¬ o.Spoils q) {x : Node}
    (h : w.tree.find q = some x) : (World.exec env o w).2.tree.find q = some x := by
  cases o with
  | mkdir p =>
      change (w.fs.mkdir env.fits p).2.tree.find q = some x
      rcases Fs.mkdir_cases env.fits w.fs p with ⟨n, r, i, hp, hx, rfl, -, -, free,
        he⟩ | ⟨e, he⟩ <;> rw [he]
      · rw [Fs.find_link, if_neg]
        · exact h
        · rintro rfl
          exact Option.some_ne_none _ (h.symm.trans free)
      · exact h
  | createNew p =>
      change (w.fs.createNew env.fits p).2.tree.find q = some x
      rcases Fs.createNew_cases env.fits w.fs p with
        ⟨n, r, i, hp, hx, rfl, -, -, free, he⟩ | ⟨e, he⟩ <;>
        rw [he]
      · rw [Fs.find_link, if_neg]
        · exact h
        · rintro rfl
          exact Option.some_ne_none _ (h.symm.trans free)
      · exact h
  | rmdir p =>
      change (w.fs.rmdir env.fits p).2.tree.find q = some x
      rcases Fs.rmdir_cases env.fits w.fs p with
        ⟨n, r, i, a, hc, rfl, -, -, he⟩ | ⟨e, he⟩ <;> rw [he]
      · rw [Fs.find_unlinkAt, if_neg (Ne.symm ho)]
        exact h
      · exact h
  | unlink p =>
      change (w.fs.unlink env.fits p).2.tree.find q = some x
      rcases Fs.unlink_cases env.fits w.fs p with
        ⟨n, r, i, a, d, hc, rfl, -, -, he⟩ | ⟨e, he⟩ <;> rw [he]
      · rw [Fs.find_unlinkAt, if_neg (Ne.symm ho)]
        exact h
      · exact h
  | append p bs =>
      change (w.fs.append env.fits bs p).2.tree.find q = some x
      rcases Fs.append_cases env.fits w.fs bs p with ⟨a, d, fs', hp, hr, he⟩ | ⟨e, he⟩ <;> rw [he]
      · rw [hr.find, if_neg (Ne.symm ho)]
        exact h
      · exact h
  | rename src dst =>
      change (w.fs.rename env.fits src dst).2.tree.find q = some x
      rcases Fs.rename_cases env.fits w.fs src dst with
        ⟨n, p, i, m, r, k, a, d, fs', rfl, rfl, -, -, -, -, -, hm, he⟩ | ⟨e, he⟩ <;> rw [he]
      · rw [hm.find, if_neg fun heq => ho (.inr heq.symm), if_neg fun heq => ho (.inl heq.symm)]
        exact h
      · exact h
  | syncFile p =>
      change (w.fs.syncFile env.fits p).2.tree.find q = some x
      rwa [Fs.tree_syncFile]
  | stat _ => exact h
  | openDir _ => exact h
  | syncDir _ => exact h
  | readFile _ => exact h
  | seek _ _ => exact h
  | readDir _ => exact h
  | budget => exact h
  | now => exact h
  | uuid => exact h
  | recv => exact h
  | lock _ _ => exact h

/-- What is at a path after a call that puts nothing there was there before. -/
theorem find_exec_slot (env : Env N) {o : Sys N L} (ho : ¬ o.Makes q) {y : Node}
    (hy : (World.exec env o w).2.tree.find q = some y) :
    ∃ z, w.tree.find q = some z ∧ z.slot = y.slot := by
  cases hz : w.tree.find q with
  | none => exact nomatch (find_exec_none env ho hz).symm.trans hy
  | some z =>
      by_cases spoils : o.Spoils q
      · -- Of the calls that change what is there, only `append` leaves anything.
        cases o with
        | rmdir p =>
            obtain rfl : p = q := spoils
            change (w.fs.rmdir env.fits p).2.tree.find p = some y at hy
            rcases Fs.rmdir_cases env.fits w.fs p with ⟨n, r, i, a, hc, rfl, -, -, he⟩ | ⟨e, he⟩ <;>
              rw [he] at hy
            · rw [Fs.find_unlinkAt, if_pos rfl] at hy
              cases hy
            · exact ⟨z, rfl, congrArg Node.slot (Option.some.inj (hz.symm.trans hy))⟩
        | unlink p =>
            obtain rfl : p = q := spoils
            change (w.fs.unlink env.fits p).2.tree.find p = some y at hy
            rcases Fs.unlink_cases env.fits w.fs p with
              ⟨n, r, i, a, d, hc, rfl, -, -, he⟩ | ⟨e, he⟩ <;>
              rw [he] at hy
            · rw [Fs.find_unlinkAt, if_pos rfl] at hy
              cases hy
            · exact ⟨z, rfl, congrArg Node.slot (Option.some.inj (hz.symm.trans hy))⟩
        | append p bs =>
            obtain rfl : p = q := spoils
            change (w.fs.append env.fits bs p).2.tree.find p = some y at hy
            rcases Fs.append_cases env.fits w.fs bs p with ⟨a, d, fs', hp, hr, he⟩ | ⟨e, he⟩ <;>
              rw [he] at hy
            · rw [hr.find, if_pos rfl] at hy
              obtain rfl := Option.some.inj (hz.symm.trans hp)
              obtain rfl := Option.some.inj hy
              exact ⟨_, rfl, rfl⟩
            · exact ⟨z, rfl, congrArg Node.slot (Option.some.inj (hz.symm.trans hy))⟩
        | rename src dst =>
            obtain rfl : src = q := spoils.resolve_right ho
            change (w.fs.rename env.fits src dst).2.tree.find src = some y at hy
            rcases Fs.rename_cases env.fits w.fs src dst with
              ⟨n, p, i, m, r, k, a, d, fs', rfl, rfl, -, -, -, -, -, hm,
                he⟩ | ⟨e, he⟩ <;> rw [he] at hy
            · rw [hm.find, if_neg (Ne.symm ho), if_pos rfl] at hy
              cases hy
            · exact ⟨z, rfl, congrArg Node.slot (Option.some.inj (hz.symm.trans hy))⟩
        | _ => exact spoils.elim
      · have kept := find_exec_some env spoils hz
        exact ⟨z, rfl, congrArg Node.slot (Option.some.inj (kept.symm.trans hy))⟩

/-- A call that fails leaves the tree alone, unless it wrote a part of what it should. -/
theorem execFault_world {env : Env N} {e : IoError} {part : Nat} {o : Sys N L}
    {x : o.Res × World N} (h : World.execFault env e part o w = some x) :
    x.2 = w ∨ ∃ p bs, x.2 = (World.exec env (.append p bs : Sys N L) w).2 := by
  cases o with
  | append p bs =>
      cases h
      exact .inr ⟨p, bs.take part, rfl⟩
  | budget => cases h
  | now => cases h
  | uuid => cases h
  | recv => cases h
  | lock _ _ => cases h
  | _ =>
      cases h
      exact .inl rfl

end World

theorem Made.eq_of_nil [DecidableEq N] {fits : N → Bool} {fs fs' : Fs N} (h : Made fits fs [] fs') :
    fs' = fs := by
  cases h
  rfl

namespace StdFs

/-! ## Removing a tree -/

section All

variable {P : Sys N L → Prop}

theorem all_forEntries {f : N × Kind → SysProg N L (Except IoError Unit)}
    (hf : ∀ c, (f c).All P) : ∀ cs, (forEntries f cs).All P
  | [] => Prog.all_pure _
  | c :: cs => (hf c).bind fun r => by
      cases r with
      | ok u => exact all_forEntries hf cs
      | error e =>
          dsimp only
          split
          · exact all_forEntries hf cs
          · exact Prog.all_pure _

/-- `remove_dir_all` names nothing but the directory and what is below it. -/
theorem all_removeTree : ∀ {fuel : Nat} {p : Path N},
    (∀ q, p <:+ q → P (.readDir q) ∧ P (.rmdir q) ∧ P (.unlink q)) →
      (removeTree fuel p : SysProg N L _).All P
  | 0, _, _ => Prog.all_pure _
  | fuel + 1, p, h => by
      obtain ⟨hread, hrm, -⟩ := h p List.suffix_rfl
      rw [removeTree]
      refine (Prog.all_call hread).bind fun r => ?_
      cases r with
      | error e => exact Prog.all_pure _
      | ok entries =>
          refine (all_forEntries (fun c => ?_) entries).bind fun r => ?_
          · have below : ∀ q, c.1 :: p <:+ q → P (.readDir q) ∧ P (.rmdir q) ∧ P (.unlink q) :=
              fun q hq => h q ((List.suffix_cons _ p).trans hq)
            unfold removeEntry
            split
            · exact all_removeTree below
            · exact Prog.all_call (below _ List.suffix_rfl).2.2
          · cases r with
            | error e => exact Prog.all_pure _
            | ok u =>
                refine (Prog.all_call hrm).bind fun r => ?_
                cases r with
                | ok u => exact Prog.all_pure _
                | error e =>
                    dsimp only
                    split <;> exact Prog.all_pure _

theorem all_removeDirAll {p : Path N} (hb : P .budget)
    (h : ∀ q, p <:+ q → P (.readDir q) ∧ P (.rmdir q) ∧ P (.unlink q)) :
    (removeDirAll p : SysProg N L _).All P :=
  (Prog.all_call hb).bind fun _ => all_removeTree h

end All

/-! ## Making a directory below one that is there -/

variable [DecidableEq N] {env : Env N} {n : N} {p : Path N} {w : World N}

/-- Something that is no directory is in the way of `create_dir_all`. -/
theorem createDirAll_file {i : Nat} {d : Bytes} (hf : Fit env.fits (n :: p))
    (h : w.tree.find (n :: p) = some (.file i d)) :
    ∃ w', (createDirAll (n :: p) : SysProg N L _).run (World.exec env) w =
      (.error ErrorKind.alreadyExists.os, w') ∧ w.Ticked w' := by
  have taken : w.fs.mkdir env.fits (n :: p) = (.error .alreadyExists, w.fs) :=
    Fs.mkdir_exists hf (by rw [show w.fs.tree.find (n :: p) = _ from h]; simp)
  refine ⟨{ w with tick := w.tick + 1 }, ?_, ⟨rfl, rfl⟩⟩
  rw [createDirAll, Prog.run_bind, mkdir_run, taken, World.withFs_error]
  simp only [ErrorKind.kind_os, reduceCtorEq, if_false, orPresent, if_true, Prog.run_bind, isDir,
    stat_run, Fs.stat_of_find hf h]
  rfl

/-- It fails on a file, makes what is missing, and leaves a directory as it is. -/
theorem createDirAll_cases (hf : Fit env.fits (n :: p)) (hp : w.tree.IsDir p) :
    (∃ w', (∃ i d, w.tree.find (n :: p) = some (.file i d)) ∧ w'.fs = w.fs ∧
      (createDirAll (n :: p) : SysProg N L _).run (World.exec env) w =
        (.error ErrorKind.alreadyExists.os, w')) ∨
    (∃ w', w.tree.find (n :: p) = none ∧ w'.tree.IsDir (n :: p) ∧
      (createDirAll (n :: p) : SysProg N L _).run (World.exec env) w = (.ok (), w')) ∨
    ∃ w', w.tree.IsDir (n :: p) ∧ w'.fs = w.fs ∧
      (createDirAll (n :: p) : SysProg N L _).run (World.exec env) w = (.ok (), w') := by
  by_cases file : ∃ i d, w.tree.find (n :: p) = some (.file i d)
  · obtain ⟨i, d, h⟩ := file
    obtain ⟨w', hrun, tick⟩ := createDirAll_file (L := L) hf h
    exact .inl ⟨w', ⟨i, d, h⟩, tick.fs, hrun⟩
  have clear : w.tree.Clear (n :: p) := by
    intro q hq i d h
    rcases List.suffix_cons_iff.mp hq with rfl | hq
    · exact file ⟨i, d, h⟩
    · obtain ⟨j, hj⟩ := FileTree.isDir_of_suffix hp hq
      rw [hj] at h
      cases h
  obtain ⟨w', hrun, made, -⟩ := createDirAll_run (L := L) hf clear
  by_cases dir : w.tree.IsDir (n :: p)
  · rw [FileTree.missing_of_isDir dir] at made
    exact .inr (.inr ⟨w', dir, made.eq_of_nil, hrun⟩)
  · refine .inr (.inl ⟨w', FileTree.find_eq_none.mpr ⟨?_, dir⟩, (made.isDir _).mpr (.inr ?_), hrun⟩)
    · cases h : w.tree.fileAt (n :: p) with
      | none => rfl
      | some d =>
          obtain ⟨i, hi⟩ := FileTree.fileAt_eq_some.mp h
          exact absurd ⟨i, d, hi⟩ file
    · exact FileTree.mem_missing.mpr ⟨List.suffix_rfl, dir⟩

end StdFs

end Aks3.Lib
