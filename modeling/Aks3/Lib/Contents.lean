import Aks3.Lib.Footprint

/-!
# Where the bytes of a file come from

A file after a call has the bytes it had before, unless the call created it, wrote to it or renamed
another file to it. So a property of the files of a tree has to be looked at for three calls only.
-/

set_option autoImplicit false

namespace Aks3.Lib

variable {N L : Type} [DecidableEq N]

/-- The call, answered so, can be why the file at a path has these bytes. -/
def Sys.Puts (t : FileTree N) (q : Path N) (d : Bytes) : (o : Sys N L) → o.Res → Prop
  | .createNew p, r => p = q ∧ r = .ok () ∧ d = []
  | .append p bs, r => p = q ∧ ∃ old, t.fileAt q = some old ∧ (r = .ok () → d = old ++ bs)
  | .rename src p, r => p = q ∧ r = .ok () ∧ t.fileAt src = some d
  | _, _ => False

/-- The call, answered so, has given the file at a path its bytes. -/
def Sys.Sets (q : Path N) : (o : Sys N L) → o.Res → Prop
  | .createNew p, r => p = q ∧ r = .ok ()
  | .append p _, r => p = q ∧ r = .ok ()
  | _, _ => False

/-- The call may change the file at a path, or take it away. -/
def Sys.Touches (q : Path N) : Sys N L → Prop
  | .createNew p | .append p _ | .unlink p => p = q
  | .rename src p => src = q ∨ p = q
  | _ => False

theorem mapError_eq_ok {ε ε' α : Type} {f : ε → ε'} {x : Except ε α} {a : α} :
    x.mapError f = .ok a ↔ x = .ok a := by
  cases x <;> simp [Except.mapError]

namespace World

variable {env : Env N} {w : World N} {q : Path N} {d : Bytes}

theorem fileAt_exec {o : Sys N L} (h : (World.exec env o w).2.tree.fileAt q = some d) :
    w.tree.fileAt q = some d ∧ ¬ o.Sets q (World.exec env o w).1 ∨
      o.Puts w.tree q d (World.exec env o w).1 := by
  cases o with
  | mkdir p =>
      change (w.fs.mkdir env.fits p).2.tree.fileAt q = some d at h
      rw [Fs.fileAt_mkdir] at h
      exact .inl ⟨h, id⟩
  | rmdir p =>
      change (w.fs.rmdir env.fits p).2.tree.fileAt q = some d at h
      rw [Fs.fileAt_rmdir] at h
      exact .inl ⟨h, id⟩
  | unlink p =>
      change (w.fs.unlink env.fits p).2.tree.fileAt q = some d at h
      rw [Fs.fileAt_unlink] at h
      split at h
      · cases h
      · exact .inl ⟨h, id⟩
  | createNew p =>
      change (w.fs.createNew env.fits p).2.tree.fileAt q = some d at h
      rw [Fs.fileAt_createNew] at h
      split at h
      · rename_i ok
        exact .inr ⟨ok.2.symm, mapError_eq_ok.mpr ok.1, (Option.some.inj h).symm⟩
      · rename_i failed
        exact .inl ⟨h, fun sets => failed ⟨mapError_eq_ok.mp sets.2, sets.1.symm⟩⟩
  | append p bs =>
      change (w.fs.append env.fits bs p).2.tree.fileAt q = some d at h
      rw [Fs.fileAt_append] at h
      split at h
      · rename_i ok
        obtain ⟨old, hold, rfl⟩ := Option.map_eq_some_iff.mp h
        exact .inr ⟨ok.2.symm, old, ok.2 ▸ hold, fun _ => rfl⟩
      · rename_i failed
        exact .inl ⟨h, fun sets => failed ⟨mapError_eq_ok.mp sets.2, sets.1.symm⟩⟩
  | rename src p =>
      change (w.fs.rename env.fits src p).2.tree.fileAt q = some d at h
      rw [Fs.fileAt_rename] at h
      split at h
      · rename_i ok
        split at h
        · rename_i hq
          exact .inr ⟨hq.symm, mapError_eq_ok.mpr ok, h⟩
        · split at h
          · cases h
          · exact .inl ⟨h, id⟩
      · exact .inl ⟨h, id⟩
  | syncFile p =>
      change (w.fs.syncFile env.fits p).2.tree.fileAt q = some d at h
      rw [Fs.tree_syncFile] at h
      exact .inl ⟨h, id⟩
  | stat _ => exact .inl ⟨h, id⟩
  | openDir _ => exact .inl ⟨h, id⟩
  | syncDir _ => exact .inl ⟨h, id⟩
  | readFile _ => exact .inl ⟨h, id⟩
  | seek _ _ => exact .inl ⟨h, id⟩
  | readDir _ => exact .inl ⟨h, id⟩
  | budget => exact .inl ⟨h, id⟩
  | now => exact .inl ⟨h, id⟩
  | uuid => exact .inl ⟨h, id⟩
  | recv => exact .inl ⟨h, id⟩
  | lock _ _ => exact .inl ⟨h, id⟩

/-- Of a write that fails a part may have been made. -/
theorem fileAt_execFault {o : Sys N L} {e : IoError} {part : Nat} {x : o.Res × World N}
    (hx : World.execFault env e part o w = some x) (h : x.2.tree.fileAt q = some d) :
    w.tree.fileAt q = some d ∧ ¬ o.Sets q x.1 ∨ o.Puts w.tree q d x.1 := by
  cases o with
  | append p bs =>
      cases hx
      change (w.fs.append env.fits (bs.take part) p).2.tree.fileAt q = some d at h
      rw [Fs.fileAt_append] at h
      split at h
      · rename_i ok
        obtain ⟨old, hold, rfl⟩ := Option.map_eq_some_iff.mp h
        exact .inr ⟨ok.2.symm, old, ok.2 ▸ hold, fun hr => by cases hr⟩
      · exact .inl ⟨h, fun sets => by cases sets.2⟩
  | budget | now | uuid | recv | lock _ _ => cases hx
  | createNew p =>
      cases hx
      exact .inl ⟨h, fun sets => by cases sets.2⟩
  | _ =>
      cases hx
      exact .inl ⟨h, id⟩

/-- A call that does not name a file leaves it as it is. -/
theorem fileAt_exec_of (env : Env N) {o : Sys N L} (h : ¬ o.Touches q) :
    (World.exec env o w).2.tree.fileAt q = w.tree.fileAt q := by
  cases o with
  | mkdir p => exact Fs.fileAt_mkdir ..
  | rmdir p => exact Fs.fileAt_rmdir ..
  | unlink p =>
      change (w.fs.unlink env.fits p).2.tree.fileAt q = _
      rw [Fs.fileAt_unlink, if_neg fun ok => h ok.2.symm]
  | createNew p =>
      change (w.fs.createNew env.fits p).2.tree.fileAt q = _
      rw [Fs.fileAt_createNew, if_neg fun ok => h ok.2.symm]
  | append p bs =>
      change (w.fs.append env.fits bs p).2.tree.fileAt q = _
      rw [Fs.fileAt_append, if_neg fun ok => h ok.2.symm]
  | rename src p =>
      change (w.fs.rename env.fits src p).2.tree.fileAt q = _
      have hsrc : q ≠ src := fun heq => h (.inl heq.symm)
      have hdst : q ≠ p := fun heq => h (.inr heq.symm)
      rw [Fs.fileAt_rename, if_neg hdst, if_neg hsrc, ite_self]
  | syncFile p =>
      change (w.fs.syncFile env.fits p).2.tree.fileAt q = _
      rw [Fs.tree_syncFile]
  | _ => rfl

theorem fileAt_execFault_of {o : Sys N L} {e : IoError} {part : Nat} {x : o.Res × World N}
    (hx : World.execFault env e part o w = some x) (h : ¬ o.Touches q) :
    x.2.tree.fileAt q = w.tree.fileAt q := by
  cases o with
  | append p bs =>
      cases hx
      exact fileAt_exec_of env (o := (.append p (bs.take part) : Sys N L)) h
  | budget | now | uuid | recv | lock _ _ => cases hx
  | _ =>
      cases hx
      rfl

theorem tick_exec (env : Env N) (o : Sys N L) (w : World N) :
    w.tick ≤ (World.exec env o w).2.tick := by
  cases o with
  | stat | readDir | budget | uuid => exact Nat.le_succ _
  | _ => exact Nat.le_refl _

theorem tick_execFault {o : Sys N L} {e : IoError} {part : Nat} {x : o.Res × World N}
    (hx : World.execFault env e part o w = some x) : x.2.tick = w.tick := by
  cases o with
  | budget | now | uuid | recv | lock _ _ => cases hx
  | _ =>
      cases hx
      rfl

/-- What a read returns is the file's. -/
theorem readFile_fileAt {p : Path N}
    (h : (World.exec env (.readFile p : Sys N L) w).1 = .ok d) : w.tree.fileAt p = some d := by
  have h := mapError_eq_ok.mp h
  unfold Fs.readFile at h
  split at h
  · cases h
  · cases h
  · rename_i i d' hr
    cases h
    exact FileTree.fileAt_eq_some.mpr ⟨i, FileTree.find_of_resolve hr⟩

end World

end Aks3.Lib
