import Aks3.Engine.Opening
import Aks3.Lib.OneFault

/-!
# A bucket whose creation failed

One filesystem call of `create_bucket` fails and all the others take their course. Up to the file
that holds the bucket's metadata, the call gives back whatever it had made: no file and no directory
has come or gone (`createBucket_fault`), so the bucket is not there, is not listed, and can be
created. Only the call that syncs `buckets/` comes after everything has been made.
-/

set_option autoImplicit false

namespace Aks3.Engine

open Lib

variable {C : Crates} {env : Env OsName} {w : World OsName} {α β ε : Type}
  {may : Sys OsName LockName → Prop} {struck : Bool}

/-! ## Methods in which one call fails -/

/-- `OneFault` for a method of the engine. -/
abbrev Faulted (env : Env OsName) (may : Sys OsName LockName → Prop)
    (Q : α → World OsName → Bool → Prop) (p : EngineProg α) (w : World OsName)
    (struck : Bool) : Prop :=
  OneFault env may Q (p.interp Op.code) w struck

namespace Faulted

variable {Q : α → World OsName → Bool → Prop} {R : β → World OsName → Bool → Prop}

theorem bind {p : EngineProg α} {f : α → EngineProg β} (h : Faulted env may Q p w struck)
    (hf : ∀ a w' u, Q a w' u → Faulted env may R (f a) w' u) : Faulted env may R
    (p >>= f) w struck := by
  rw [Faulted, Prog.interp_bind]
  exact OneFault.bind h hf

theorem bindE {R : Except ε β → World OsName → Bool → Prop}
    {Q : Except ε α → World OsName → Bool → Prop} {x : ExceptT ε EngineProg α}
    {f : α → ExceptT ε EngineProg β} (h : Faulted env may Q x.run w struck)
    (hok : ∀ a w' u, Q (.ok a) w' u → Faulted env may R (f a).run w' u)
    (herr : ∀ e w' u, Q (.error e) w' u → R (.error e) w' u) :
    Faulted env may R (x >>= f).run w struck := by
  rw [ExceptT.run_bind]
  refine bind h fun r w' u hr => ?_
  cases r with
  | ok a => exact hok a w' u hr
  | error e => exact herr e w' u hr

theorem bindLift {R : Except ε β → World OsName → Bool → Prop} {p : EngineProg α}
    {f : α → ExceptT ε EngineProg β} (h : Faulted env may Q p w struck)
    (hf : ∀ a w' u, Q a w' u → Faulted env may R (f a).run w' u) :
    Faulted env may R (ExceptT.lift p >>= f).run w struck := by
  refine bindE (Q := fun r w' u => ∃ a, r = .ok a ∧ Q a w' u) ?_ (fun a w' u => ?_) fun e w' u => ?_
  · rw [ExceptT.run_lift, ← bind_pure_comp]
    exact bind h fun a w' u ha => ⟨a, rfl, ha⟩
  · rintro ⟨_, ⟨⟩, ha⟩
    exact hf a w' u ha
  · rintro ⟨_, he, -⟩
    cases he

theorem adapt {ε' : Type} {Q : Except ε α → World OsName → Bool → Prop}
    {R : Except ε' α → World OsName → Bool → Prop} {x : ExceptT ε EngineProg α} {f : ε → ε'}
    (h : Faulted env may Q x.run w struck) (hq : ∀ r w' u, Q r w' u → R (r.mapError f) w' u) :
    Faulted env may R (ExceptT.adapt f x).run w struck := by
  change Faulted env may R (Except.mapError f <$> x.run) w struck
  rw [← bind_pure_comp]
  exact bind h fun r w' u hr => hq r w' u hr

theorem call (c : Call) {Q : c.Res → World OsName → Bool → Prop}
    (h : OneFault env may Q c.code w struck) : Faulted env may Q (await c) w struck := by
  have code : (await c).interp Op.code = c.code := Prog.interp_call (S := engineSig) (.call c)
  rw [Faulted, code]
  exact h

theorem step (s : Sys OsName LockName) {Q : s.Res → World OsName → Bool → Prop}
    (h : OneFault env may Q (StdFs.sys s) w struck) : Faulted env may Q (prim s) w struck := by
  have code : (prim s).interp Op.code = StdFs.sys s := Prog.interp_call (S := engineSig) (.prim s)
  rw [Faulted, code]
  exact h

theorem of_run {p : EngineProg α}
    (h : Q (p.run (engineExec env) w).1 (p.run (engineExec env) w).2 true) :
    Faulted env may Q p w true := by
  refine OneFault.of_run ?_
  rw [Prog.run_interp]
  exact h

theorem clean (p : EngineProg α) : Faulted env may
    (fun a w' u => u = false → p.run (engineExec env) w = (a, w')) p w struck := by
  refine OneFault.clean.mono fun a w' u h hu => ?_
  rw [← h hu, Prog.run_interp]
  rfl

/-- A call that reports no error but its own leaves the world as it is. -/
theorem same_of_fault {o : Sys OsName LockName} (ho : Peeks o) {e : IoError} {part : Nat}
    {r : o.Res × World OsName} (hr : World.execFault env e part o w = some r) : r.2 = w := by
  cases o <;> first | exact ho.elim | cases hr <;> rfl

theorem tree_of_peeks {o : Sys OsName LockName} (ho : Peeks o) (w : World OsName) :
    (World.exec env o w).2.tree = w.tree := by
  cases o <;> first | exact ho.elim | rfl

/-- Reading changes nothing, whether or not a call fails. -/
theorem of_readOnly {p : EngineProg α} (hp : ReadOnly p) : Faulted env may
    (fun _ w' u => w'.tree = w.tree ∧ (struck = true → u = true)) p w struck := by
  have hall : (p.interp Op.code).All Peeks :=
    .interp (hp.mono fun o ho => all_code_of_reads (fun _ => id) o ho)
  refine OneFault.of_all (J := fun w' => w'.tree = w.tree) hall (fun o w' ho h => ?_)
    (fun o w' ho h e part r hr => ?_) rfl
  · rw [tree_of_peeks ho, h]
  · rw [same_of_fault ho hr, h]

end Faulted

/-! ## Staged writes in which one call fails -/

/-- No file and no directory came or went, and no file changed, except perhaps the file at `p`,
which is now `v`. -/
structure Shows (w w' : World OsName) (p : Path OsName) (v : Option Bytes) : Prop where
  file : ∀ q, w'.tree.fileAt q = if q = p then v else w.tree.fileAt q
  dir : ∀ q, w'.tree.IsDir q ↔ w.tree.IsDir q

theorem Wrote.shows {w w' : World OsName} {p : Path OsName} {v : Option Bytes}
    {D F : Set (Path OsName)} (h : Wrote w w' p v D F) : Shows w w' p v := ⟨h.file, h.dir⟩

theorem Shows.trans {w w₁ w₂ : World OsName} {p : Path OsName} {v v' : Option Bytes}
    (h : Shows w w₁ p v) (h' : Shows w₁ w₂ p v') : Shows w w₂ p v' where
  file q := by
    rw [h'.file, h.file]
    split <;> rfl
  dir q := (h'.dir q).trans (h.dir q)

theorem Shows.of_tree {w w₁ w₂ : World OsName} {p : Path OsName} {v : Option Bytes}
    (h : Shows w w₁ p v) (ht : w₂.tree = w₁.tree) : Shows w w₂ p v :=
  ⟨fun q => ht ▸ h.file q, fun q => ht ▸ h.dir q⟩

theorem Shows.shaped {w w' : World OsName} (pl : Place) {v : Option Bytes}
    (h : Shows w w' pl.path v)
    (hk : pl.kind = .file) (hf : Fit env.fits pl.path) (hs : Shaped env.fits w.tree) :
    Shaped env.fits w'.tree :=
  hs.of_commit pl hk hf (fun q hp hq => by rwa [h.file, if_neg hp] at hq)
    fun q hq => .inl ((h.dir q).mp hq)

namespace Faulted

/-- A staged file is created, or it is not and nothing has changed. -/
theorem create (hown : OwnNames env) (ht : w.tree.IsDir tmpDir) (hs : Shaped env.fits w.tree)
    (hempty : ∀ n, w.tree.fileAt (n :: tmpDir) = none) :
    Faulted env may (fun r w' u =>
      (∃ n, r = .ok ⟨n :: tmpDir⟩ ∧ Fit env.fits (n :: tmpDir) ∧
        Shows w w' (n :: tmpDir) (some []) ∧
        u = false) ∨
      (∃ e, r = .error e) ∧ w'.tree = w.tree ∧ u = true)
      (StagedFile.create tmpDir).run w false := by
  have struck : Faulted env may (fun r w' u => u = true → (∃ e, r = .error e) ∧ w'.tree = w.tree)
      (StagedFile.create tmpDir).run w false := by
    refine bindLift (Q := fun _ w' u => w'.tree = w.tree ∧ u = false)
      (step .uuid (OneFault.call ⟨rfl, rfl⟩ fun _ _ _ _ r hr => by cases hr)) fun id w' _ hu => ?_
    obtain ⟨htree, rfl⟩ := hu
    refine bindE (Q := fun r w' u => u = true → (∃ e, r = .error e) ∧ w'.tree = w.tree)
      (call (.openNew (tmpName id :: tmpDir))
        (OneFault.call (o := .createNew (tmpName id :: tmpDir))
        (fun h => nomatch h) fun _ _ e part r hr => ?_)) (fun _ w' u h => ?_)
          fun e w' u h hu => ⟨⟨e, rfl⟩, (h hu).2⟩
    · cases hr
      exact fun _ => ⟨⟨e, rfl⟩, htree⟩
    · intro hu
      obtain ⟨⟨e, he⟩, -⟩ := h hu
      cases he
  refine ((clean _).and struck).mono fun r w' u h => ?_
  cases u with
  | false =>
      obtain ⟨n, w₁, hrun, hf, hwrote⟩ := create_run hown ht hs hempty
      obtain ⟨rfl, rfl⟩ := Prod.mk.inj ((h.1 rfl).symm.trans hrun)
      exact .inl ⟨n, rfl, hf, hwrote.shows, rfl⟩
  | true => exact .inr ⟨(h.2 rfl).1, (h.2 rfl).2, rfl⟩

/-- Of a write that fails, a part may have been made. -/
theorem writeAll {p : Path OsName} {d : Bytes} (hf : Fit env.fits p)
    (hp : w.tree.fileAt p = some d) (bs : Bytes) :
    Faulted env may (fun r w' u => (∃ d', Shows w w' p (some d')) ∧
      (r = .ok () ∧ u = false ∨ (∃ e, r = .error e) ∧ u = true))
      (TokioFs.writeAll p bs).run w false := by
  obtain ⟨w₁, hrun, hw₁⟩ := writeAll_run hf hp bs
  refine call (.writeAll p bs) (OneFault.call (o := .append p bs) ?_ fun _ _ e part r hr => ?_)
  · rw [show World.exec env (.append p bs) w = _ from hrun]
    exact ⟨⟨_, hw₁.shows⟩, .inl ⟨rfl, rfl⟩⟩
  · cases hr
    obtain ⟨w₂, hrun₂, hw₂⟩ := writeAll_run hf hp (bs.take part)
    have heq : w₂ = { w with fs := (w.fs.append env.fits (bs.take part) p).2 } :=
      (congrArg Prod.snd hrun₂).symm
    exact ⟨⟨_, heq ▸ hw₂.shows⟩, .inr ⟨⟨e, rfl⟩, rfl⟩⟩

/-- Making a directory that is there changes nothing. -/
theorem createDirAll {p : Path OsName} (hf : Fit env.fits p) (hp : w.tree.IsDir p) :
    Faulted env may (fun r w' u => w'.tree = w.tree ∧ (struck = true → u = true) ∧
      ((∃ e, r = .error e) → u = true)) (TokioFs.createDirAll p).run w struck := by
  refine call (.createDirAll p) ?_
  have asks : (StdFs.createDirAll p : WalkProg _).All fun o : Sys OsName LockName =>
      (∃ q, q <:+ p ∧ o = .mkdir q) ∨ ∃ q, o = .stat q :=
    StdFs.all_createDirAll (fun q => .inr ⟨q, rfl⟩) fun n q hq => .inl ⟨n :: q, hq, rfl⟩
  have same : OneFault env may (fun _ w' u => w'.tree = w.tree ∧ (struck = true → u = true))
      (StdFs.createDirAll p : WalkProg _) w struck := by
    refine OneFault.of_all (J := fun w' => w'.tree = w.tree) asks ?_ ?_ rfl
    · rintro o w' (⟨q, hq, rfl⟩ | ⟨q, rfl⟩) h
      · obtain ⟨i, hi⟩ := FileTree.isDir_of_suffix hp hq
        change (w'.fs.mkdir env.fits q).2.tree = w.tree
        rcases Fs.mkdir_cases env.fits w'.fs q with ⟨n, r, j, -, -, -, -, -, free, -⟩ | ⟨e, he⟩
        · rw [← h] at hi
          cases hi.symm.trans free
        · rw [he]
          exact h
      · exact h
    · rintro o w' (⟨q, hq, rfl⟩ | ⟨q, rfl⟩) h e part r hr <;> cases hr <;> exact h
  refine (same.and OneFault.clean).mono fun r w' u h => ⟨h.1.1, h.1.2, ?_⟩
  rintro ⟨e, rfl⟩
  cases u with
  | true => rfl
  | false =>
      have clear : w.tree.Clear p := fun q hq i d hfile => by
        obtain ⟨j, hj⟩ := FileTree.isDir_of_suffix hp hq
        cases hj.symm.trans hfile
      obtain ⟨w₁, hrun, -⟩ := StdFs.createDirAll_run (L := LockName) hf clear
      cases (h.2 rfl).symm.trans hrun

/-- A staged file is moved to its place, or it is not and nothing has changed. -/
theorem publish (hs : Shaped env.fits w.tree) (pl : Place) (hk : pl.kind = .file)
    (hf : Fit env.fits pl.path) (hdir : w.tree.IsDir (parentDir pl.path)) {n : OsName} {d : Bytes}
    (hp : w.tree.fileAt (n :: tmpDir) = some d) :
    Faulted env may (fun r w' u =>
      ((∃ l, r = .ok l) ∧ (∀ q, w'.tree.fileAt q = if q = pl.path then some d else
        if q = n :: tmpDir then none else w.tree.fileAt q) ∧
        ∀ q, w'.tree.IsDir q ↔ w.tree.IsDir q) ∨
      (∃ e, r = .error e) ∧ w'.tree = w.tree ∧ u = true)
      ((⟨n :: tmpDir⟩ : StagedFile).publish pl.path).run w false := by
  have hsrc := hs.fit_of_fileAt hp
  have hparent : Fit env.fits (parentDir pl.path) := hf.suffix (List.tail_suffix _)
  obtain ⟨w₁, hrun₁, htree₁, -, -⟩ := syncAll_run hsrc hp
  refine bindE (Q := fun r w' u => w'.tree = w.tree ∧ ((∃ e, r = .error e) → u = true))
    (call (.syncAll (n :: tmpDir)) (OneFault.call (o := .syncFile (n :: tmpDir)) ?_
      fun _ _ e part r hr => ?_)) (fun _ w' u h => ?_) fun e w' u h =>
        .inr ⟨⟨e, rfl⟩, h.1, h.2 ⟨e, rfl⟩⟩
  · rw [show World.exec env (.syncFile (n :: tmpDir)) w = _ from hrun₁]
    exact ⟨htree₁, fun ⟨e, he⟩ => nomatch he⟩
  · cases hr
    exact ⟨rfl, fun _ => rfl⟩
  refine bindLift (of_readOnly (readOnly_dirsToSync _)) fun l w₂ u₂ h₂ => ?_
  have tree₂ : w₂.tree = w.tree := h₂.1.trans h.1
  refine bindE (createDirAll hparent (tree₂ ▸ hdir)) (fun _ w₃ u₃ h₃ => ?_)
    fun e w' u h' => .inr ⟨⟨e, rfl⟩, h'.1.trans tree₂, h'.2.2 ⟨e, rfl⟩⟩
  have tree₃ : w₃.tree = w.tree := h₃.1.trans tree₂
  have hfree : ¬ w₃.tree.IsDir pl.path := tree₃ ▸ hs.not_isDir pl hk
  obtain ⟨w₄, hrun₄, hfile₄, hdir₄, -⟩ := rename_run (w := w₃) pl.path hsrc hf
    (by rw [tree₃, hp]) (tree₃ ▸ hdir) hfree pl.path_ne_nil
  refine bindE (Q := fun r w' u => (r = .ok () ∧ w' = w₄) ∨ (∃ e, r = .error e) ∧
    w' = w₃ ∧ u = true)
    (call (.rename (n :: tmpDir) pl.path) (OneFault.call (o := .rename (n :: tmpDir) pl.path) ?_
      fun _ _ e part r hr => ?_)) (fun _ w' u h => ?_) fun e w' u h => ?_
  · rw [show World.exec env (.rename (n :: tmpDir) pl.path) w₃ = _ from hrun₄]
    exact .inl ⟨rfl, rfl⟩
  · cases hr
    exact .inr ⟨⟨e, rfl⟩, rfl, rfl⟩
  · rcases h with ⟨-, rfl⟩ | ⟨⟨e, he⟩, -⟩
    · exact .inl ⟨⟨l, rfl⟩, fun q => by rw [hfile₄, tree₃], fun q => by rw [hdir₄, tree₃]⟩
    · cases he
  · rcases h with ⟨he, -⟩ | ⟨-, rfl, rfl⟩
    · cases he
    · exact .inr ⟨⟨e, rfl⟩, tree₃, rfl⟩

/-- Whatever becomes of the commit, the staged file is gone. -/
theorem commit (hs : Shaped env.fits w.tree) (pl : Place) (hk : pl.kind = .file)
    (hf : Fit env.fits pl.path) (hdir : w.tree.IsDir (parentDir pl.path)) {n : OsName} {d : Bytes}
    (hp : w.tree.fileAt (n :: tmpDir) = some d) :
    Faulted env may (fun _ w' _ => (∀ q, q ≠ pl.path →
        w'.tree.fileAt q = if q = n :: tmpDir then none else w.tree.fileAt q) ∧
      ∀ q, w'.tree.IsDir q ↔ w.tree.IsDir q)
      ((⟨n :: tmpDir⟩ : StagedFile).commit pl.path).run w false := by
  refine bind (publish hs pl hk hf hdir hp) fun r w₁ u h => ?_
  rcases h with ⟨⟨l, rfl⟩, hfile, hdir₁⟩ | ⟨⟨e, rfl⟩, htree, rfl⟩
  · refine OneFault.mono (of_readOnly (readOnly_syncDirs l)) fun _ w' _ h => ?_
    rw [h.1]
    exact ⟨fun q hq => by rw [hfile, if_neg hq], hdir₁⟩
  · have dropped : ∃ w₂, (⟨n :: tmpDir⟩ : StagedFile).drop.run (engineExec env) w₁ = ((), w₂) ∧
        Wrote w₁ w₂ (n :: tmpDir) none {tmpDir} ∅ := drop_run _ (hs.fit_of_fileAt hp) (htree ▸ hp)
    obtain ⟨w₂, hrun, hw₂⟩ := dropped
    refine of_run ?_
    simp only [Prog.run_bind, hrun]
    exact ⟨fun q _ => by rw [Prog.run_pure, hw₂.file, htree],
      fun q => by rw [Prog.run_pure, hw₂.dir, htree]⟩

/-- Whatever becomes of the write, only the file it is for has changed. -/
theorem writeJsonAtomic (hown : OwnNames env) (ht : w.tree.IsDir tmpDir)
    (hs : Shaped env.fits w.tree) (hempty : ∀ n, w.tree.fileAt (n :: tmpDir) = none) (pl : Place)
    (hk : pl.kind = .file) (hf : Fit env.fits pl.path) (htmp : ∀ n, pl ≠ .staged n)
    (hdir : w.tree.IsDir (parentDir pl.path)) (bytes : Bytes) :
    Faulted env may (fun r w' u => (∀ q, q ≠ pl.path → w'.tree.fileAt q = w.tree.fileAt q) ∧
      (∀ q, w'.tree.IsDir q ↔ w.tree.IsDir q) ∧ ((∃ e, r = .error e) → u = true))
      (writeJsonAtomic tmpDir pl.path bytes).run w false := by
  have view : Faulted env may
      (fun _ w' _ => (∀ q, q ≠ pl.path → w'.tree.fileAt q = w.tree.fileAt q) ∧
      ∀ q, w'.tree.IsDir q ↔ w.tree.IsDir q)
        (Engine.writeJsonAtomic tmpDir pl.path bytes).run w false := by
    refine bindE (create hown ht hs hempty) (fun staged w₁ u h => ?_) fun e w' u h => ?_
    swap
    · rcases h with ⟨n, he, -⟩ | ⟨-, htree, -⟩
      · cases he
      · exact ⟨fun q _ => by rw [htree], fun q => by rw [htree]⟩
    rcases h with ⟨n, ⟨⟩, hn, hw₁, rfl⟩ | ⟨⟨e, he⟩, -⟩
    swap
    · cases he
    have hs₁ : Shaped env.fits w₁.tree := hw₁.shaped (.staged n) rfl hn hs
    have staged_none : w.tree.fileAt (n :: tmpDir) = none := hempty n
    refine bindLift (writeAll hn (by rw [hw₁.file, if_pos rfl]) bytes) fun r w₂ u h => ?_
    obtain ⟨⟨d, hw₂⟩, h⟩ := h
    have hs₂ : Shaped env.fits w₂.tree := hw₂.shaped (.staged n) rfl hn hs₁
    have here : w₂.tree.fileAt (n :: tmpDir) = some d := by rw [hw₂.file, if_pos rfl]
    have all₂ := hw₁.trans hw₂
    rcases h with ⟨rfl, rfl⟩ | ⟨⟨e, rfl⟩, rfl⟩
    · refine (commit hs₂ pl hk hf ((all₂.dir _).mpr hdir) here).mono fun _ w' _ h => ?_
      refine ⟨fun q hq => ?_, fun q => (h.2 q).trans (all₂.dir q)⟩
      rw [h.1 q hq, all₂.file]
      by_cases hqn : q = n :: tmpDir
      · rw [if_pos hqn, hqn, staged_none]
      · rw [if_neg hqn, if_neg hqn]
    · have dropped : ∃ w₃, (⟨n :: tmpDir⟩ : StagedFile).drop.run (engineExec env) w₂ = ((), w₃) ∧
          Wrote w₂ w₃ (n :: tmpDir) none {tmpDir} ∅ := drop_run _ hn here
      obtain ⟨w₃, hrun, hw₃⟩ := dropped
      have all₃ := all₂.trans hw₃.shows
      refine of_run ?_
      rw [Prog.run_bind_lift hrun]
      refine ⟨fun q _ => ?_, fun q => all₃.dir q⟩
      rw [Prog.run_throw, all₃.file]
      by_cases hqn : q = n :: tmpDir
      · rw [if_pos hqn, hqn, staged_none]
      · rw [if_neg hqn]
  refine (view.and (clean _)).mono fun r w' u h => ⟨h.1.1, h.1.2, ?_⟩
  rintro ⟨e, rfl⟩
  cases u with
  | true => rfl
  | false =>
      obtain ⟨w₁, hrun, -⟩ := writeJsonAtomic_run hown ht hs hempty pl hk hf htmp bytes
      cases (h.2 rfl).symm.trans hrun

end Faulted

/-! ## Creating a bucket -/

/-- No file and no directory came or went, and no file changed. -/
structure Unchanged (w w' : World OsName) : Prop where
  file : ∀ q, w'.tree.fileAt q = w.tree.fileAt q
  dir : ∀ q, w'.tree.IsDir q ↔ w.tree.IsDir q

theorem Unchanged.of_tree {w w' : World OsName} (h : w'.tree = w.tree) : Unchanged w w' :=
  ⟨fun q => by rw [h], fun q => by rw [h]⟩

theorem Unchanged.ready {w w' : World OsName} (h : Unchanged w w') (hr : Ready env.fits w.tree) :
    Ready env.fits w'.tree where
  shaped := hr.shaped.of_subset (fun q hq => h.file q ▸ hq) fun q hq => (h.dir q).mp hq
  tmp := (h.dir _).mpr hr.tmp
  buckets := (h.dir _).mpr hr.buckets
  empty n := (h.file _).trans (hr.empty n)

/-- The calls whose failure is considered: not the `fsync` of `buckets/`, and the `mkdir` of the
bucket only if it is not there. -/
structure MayFail (t : FileTree OsName) (b : String) (s : Sys OsName LockName) : Prop where
  open_buckets : s ≠ .openDir bucketsDir
  sync_buckets : ∀ i, t.find bucketsDir = some (.dir i) → s ≠ .syncDir i
  mkdir : t.IsDir (bucketDir b) → s ≠ .mkdir (bucketDir b)

variable {b : String}

/-- The rollback takes away the directory that was made, with the metadata file. -/
theorem rollback_run {w₁ w₂ : World OsName} (hr : Ready env.fits w.tree)
    (hd : ¬ w.tree.IsDir (bucketDir b)) (hs₂ : Shaped env.fits w₂.tree)
    (hfile₁ : ∀ q, w₁.tree.fileAt q = w.tree.fileAt q)
    (hdir₁ : ∀ q, w₁.tree.IsDir q ↔ w.tree.IsDir q ∨ q = bucketDir b)
    (hfile₂ : ∀ q, q ≠ (Place.bucketMeta b).path → w₂.tree.fileAt q = w₁.tree.fileAt q)
    (hdir₂ : ∀ q, w₂.tree.IsDir q ↔ w₁.tree.IsDir q) :
    ∃ w₃, (await (.removeDirAll (bucketDir b))).run (engineExec env) w₂ = (.ok (), w₃) ∧
      Unchanged w w₃ := by
  have made : w₂.tree.IsDir (utf8 b :: bucketsDir) := (hdir₂ _).mpr ((hdir₁ _).mpr (.inr rfl))
  obtain ⟨w₃, hrun, hcl⟩ := StdFs.removeDirAll_run (L := LockName) made hs₂.fit
  have free : ∀ q, bucketDir b <:+ q → w.tree.find q = none := by
    intro q hq
    by_contra hne
    rcases eq_or_ne q (bucketDir b) with rfl | hqb
    · exact hne (hr.shaped.find_none_of_dir (.bucket b) rfl hd)
    · obtain ⟨n, hn, -⟩ := FileTree.child_of_suffix hq hqb hne
      exact hd (FileTree.isDir_of_find hn)
  have kept : ∀ q, ¬ bucketDir b <:+ q → w₃.tree.find q = w₂.tree.find q := fun q hq =>
    (hcl.find q).trans (if_neg hq)
  refine ⟨w₃, hrun, fun q => ?_, fun q => ?_⟩
  · by_cases hq : bucketDir b <:+ q
    · rw [FileTree.fileAt_congr (t := w.tree) ((hcl.gone q hq).trans (free q hq).symm)]
    · rw [FileTree.fileAt_congr (kept q hq), hfile₂, hfile₁]
      rintro rfl
      exact hq (List.suffix_cons _ _)
  · by_cases hq : bucketDir b <:+ q
    · rw [FileTree.isDir_congr (t := w.tree) ((hcl.gone q hq).trans (free q hq).symm)]
    · rw [FileTree.isDir_congr (kept q hq), hdir₂, hdir₁, or_iff_left]
      rintro rfl
      exact hq List.suffix_rfl

/-- The directory of the buckets stays where it is. -/
theorem Faulted.buckets_stay {i : Nat} (h : w.tree.find bucketsDir = some (.dir i))
    (bytes : Bytes) :
    Faulted env may (fun _ w' _ => w'.tree.find bucketsDir = some (.dir i))
      (Engine.writeJsonAtomic tmpDir (bucketMetaPath (bucketDir b)) bytes).run w false := by
  have staged : ∀ u, tmpName u :: tmpDir ≠ bucketsDir := by simp [tmpDir, bucketsDir]
  have meta_ne : bucketMetaPath (bucketDir b) ≠ bucketsDir := by
    simp [bucketMetaPath, bucketDir, bucketsDir]
  have asks : (Engine.writeJsonAtomic tmpDir (bucketMetaPath (bucketDir b)) bytes).run.All
      (Spares bucketsDir) := by
    refine all_writeJsonAtomic spares_reads (Prog.all_call id)
      (fun u => ⟨⟨?_, ?_, ?_, ?_⟩, ?_, ?_⟩) bytes
    · exact Prog.all_call id
    · exact fun _ => Prog.all_call (staged u)
    · exact Prog.all_call id
    · exact Prog.all_call (staged u)
    · exact spares_createDirAll _
    · exact Prog.all_call fun he => he.elim (staged u) meta_ne
  refine OneFault.mono (OneFault.of_all
    (J := fun w' => w'.tree.find bucketsDir = some (.dir i)) (.interp asks)
    (fun o w' ho h => World.find_exec_some env ho h) (fun o w' ho h e part r hr => ?_) h)
      fun _ _ _ h => h.1
  cases o with
  | append p bs =>
      cases hr
      exact World.find_exec_some env (o := Sys.append p (bs.take part)) (L := LockName) ho h
  | _ => cases hr <;> exact h

/-- If its own calls do not fail, the `fsync` of `buckets/` succeeds. -/
theorem Faulted.fsync_buckets {i : Nat} (hs : Shaped env.fits w.tree)
    (h : w.tree.find bucketsDir = some (.dir i)) (hopen : ¬ may (.openDir bucketsDir))
    (hsync : ¬ may (.syncDir i)) :
    Faulted env may (fun r _ _ => r = .ok ()) (fsyncDir bucketsDir).run w struck := by
  have hok : w.fs.openDir env.fits bucketsDir = .ok i :=
    Fs.openDir_ok (hs.fit _ (by rw [h]; exact Option.some_ne_none _)) h
  refine bindE (Q := fun r _ _ => r = .ok i) (call (.openDir bucketsDir)
    (OneFault.call (o := .openDir bucketsDir) ?_ fun _ hm => absurd hm hopen)) (fun a w' u ha => ?_)
    fun e w' u he => nomatch he
  · change (w.fs.openDir env.fits bucketsDir).mapError ErrorKind.os = .ok i
    rw [hok]
    rfl
  · cases ha
    exact call (.syncDir i) (OneFault.call (o := .syncDir i) rfl fun _ hm => absurd hm hsync)

/-- **A failed creation gives everything back.** -/
theorem createBucketLocked_faulted (hown : OwnNames env) (hr : Ready env.fits w.tree)
    (hv : isValidBucketName b = true) :
    Faulted env (MayFail w.tree b) (fun r w' _ => ∀ x, r = .error x → x ≠ .bucketAlreadyExists →
      ¬ w.tree.IsDir (bucketDir b) ∧ Unchanged w w')
        (createBucketLocked C (bucketDir b)).run w false := by
  have hfit := hown.bucket_fit hv
  by_cases hd : w.tree.IsDir (bucketDir b)
  · -- the bucket is there, and the only call says so
    have hex : World.exec (L := LockName) env (.mkdir (bucketDir b)) w =
        ((.error ErrorKind.alreadyExists.os, w) : Except IoError Unit × World OsName) := by
      obtain ⟨i, hi⟩ := hd
      have taken : w.fs.mkdir env.fits (bucketDir b) = (.error .alreadyExists, w.fs) :=
        Fs.mkdir_exists hfit (Option.ne_none_iff_exists'.mpr ⟨_, hi⟩)
      change w.withFs (w.fs.mkdir env.fits (bucketDir b)) = _
      rw [taken]
      rfl
    refine Faulted.bindLift (Q := fun r _ _ => r = .error ErrorKind.alreadyExists.os)
      (Faulted.call (.createDir (bucketDir b)) (OneFault.call (o := .mkdir (bucketDir b)) ?_
        fun _ hm => absurd rfl (hm.mkdir hd))) fun r w' u h => ?_
    · rw [hex]
    · subst h
      exact fun x hx hne => absurd (Except.error.inj hx).symm hne
  obtain ⟨w₁, hmk, hfile₁, hdir₁, hs₁, -⟩ := createDir_bucket hown hr hv hd
  obtain ⟨i, hi⟩ := hr.buckets
  have hi₁ : w₁.tree.find bucketsDir = some (.dir i) := by
    have hspare : (TokioFs.createDir (bucketDir b)).run.All (Spares bucketsDir) :=
      Prog.all_call (Prog.all_call id)
    have := find_of_spares env hspare hi
    rwa [hmk] at this
  refine Faulted.bindLift (Q := fun r w' u => (r = .ok () ∧ w₁ = w' ∧ u = false) ∨
      (∃ e, r = .error e) ∧ w = w') (Faulted.call (.createDir (bucketDir b))
        (OneFault.call (o := .mkdir (bucketDir b)) ?_ fun _ _ e part r hr => ?_)) fun r w' u h => ?_
  · rw [show World.exec env (.mkdir (bucketDir b)) w = _ from hmk]
    exact .inl ⟨rfl, rfl, rfl⟩
  · cases hr
    exact .inr ⟨⟨e, rfl⟩, rfl⟩
  rcases h with ⟨rfl, rfl, rfl⟩ | ⟨⟨e, rfl⟩, rfl⟩
  swap
  · dsimp only
    split <;> exact fun _ _ _ => ⟨hd, .of_tree rfl⟩
  refine Faulted.bindLift (Q := fun _ w' u => w₁ = w' ∧ u = false)
    (Faulted.step .now (OneFault.call ⟨rfl, rfl⟩ fun _ _ _ _ r hr => by cases hr))
      fun ms w' u h => ?_
  obtain ⟨rfl, rfl⟩ := h
  have write : Faulted env (MayFail w.tree b) _ _ w₁ false := Faulted.writeJsonAtomic hown
    ((hdir₁ _).mpr (.inl hr.tmp)) hs₁ (fun n => (hfile₁ _).trans (hr.empty n)) (.bucketMeta b) rfl
    (hown.bucketMeta_fit hv) (by simp) ((hdir₁ _).mpr (.inr rfl)) (C.bucketMetaJson.toVec ⟨ms⟩)
  refine Faulted.bindLift (write.and (Faulted.buckets_stay hi₁ _)) fun r w₂ u h => ?_
  obtain ⟨⟨hfile₂, hdir₂, herr⟩, hi₂⟩ := h
  have hs₂ : Shaped env.fits w₂.tree := hs₁.of_commit (.bucketMeta b) rfl (hown.bucketMeta_fit hv)
    (fun q hp hq => hfile₂ q hp ▸ hq) fun q hq => .inl ((hdir₂ q).mp hq)
  cases r with
  | error e =>
      obtain rfl := herr ⟨e, rfl⟩
      obtain ⟨w₃, hrun, same⟩ := rollback_run hr hd hs₂ hfile₁ hdir₁ hfile₂ hdir₂
      refine Faulted.of_run ?_
      dsimp only
      rw [Prog.run_bind_lift hrun]
      exact fun _ _ _ => ⟨hd, same⟩
  | ok _ =>
      have sync : Faulted env (MayFail w.tree b) (fun r _ _ => r = .ok ())
          (fsyncDir bucketsDir).run w₂ u :=
        Faulted.fsync_buckets hs₂ hi₂ (fun hm => hm.open_buckets rfl) fun hm =>
          hm.sync_buckets i hi rfl
      refine Faulted.adapt sync fun r w' u hr x hx => ?_
      subst hr
      cases hx

theorem Faulted.withLock {Q : α → World OsName → Bool → Prop} (l : LockName) (m : Mode)
    {body : EngineProg α} (h : Faulted env may Q body w struck) :
    Faulted env may Q (withLock l m body) w struck := by
  have lock : ∀ (k : LockStep) (w : World OsName) (u : Bool), Faulted env may
      (fun _ w' u' => w = w' ∧ u = u') (prim (.lock l k)) w u := fun k w u =>
    step (.lock l k) (OneFault.call ⟨rfl, rfl⟩ fun _ _ _ _ r hr => by cases hr)
  refine bind (lock _ w struck) fun _ w₁ u₁ h₁ => ?_
  obtain ⟨rfl, rfl⟩ := h₁
  refine bind (lock _ w struck) fun _ w₂ u₂ h₂ => ?_
  obtain ⟨rfl, rfl⟩ := h₂
  refine bind h fun r w₃ u₃ h₃ => ?_
  refine bind (lock _ w₃ u₃) fun _ w₄ u₄ h₄ => ?_
  obtain ⟨rfl, rfl⟩ := h₄
  refine bind (lock _ w₃ u₃) fun _ w₅ u₅ h₅ => ?_
  obtain ⟨rfl, rfl⟩ := h₅
  exact h₃

/-- A request to create a bucket that fails leaves everything as it was. -/
theorem createBucket_unchanged (hown : OwnNames env) (hr : Ready env.fits w.tree)
    {s : Sys OsName LockName} (hs : MayFail w.tree b s) {out : Resp × World OsName}
    (run : FaultRun env s ((serve C (.createBucket b)).interp Op.code) w out) {x : EngineError}
    (herr : out.1 = .error x) (hx : x ≠ .bucketAlreadyExists) :
    isValidBucketName b = true ∧ ¬ w.tree.IsDir (bucketDir b) ∧ Unchanged w out.2 := by
  by_cases hv : isValidBucketName b = true
  swap
  · -- an invalid name is refused before any call
    rw [serve, createBucket, checkedBucketDir, if_neg hv] at run
    cases run
  refine ⟨hv, ?_⟩
  have spec : Faulted env (MayFail w.tree b) (fun r w' _ => ∀ x, r = .error x →
      x ≠ .bucketAlreadyExists → ¬ w.tree.IsDir (bucketDir b) ∧ Unchanged w w')
      (serve C (.createBucket b)) w false := by
    rw [serve, createBucket, checkedBucketDir, if_pos hv]
    refine Faulted.bindE (Faulted.withLock _ _ (createBucketLocked_faulted hown hr hv))
      (fun _ w' u _ => ?_) fun e w' u h x hx => h x (congrArg Except.error (Except.error.inj hx))
    intro x hx
    cases hx
  exact OneFault.sound spec hs run x herr hx

theorem names_bucketInfos : ∀ names : List String,
    (bucketInfos C names).Returns fun infos => infos.map BucketInfo.name = names
  | [] => rfl
  | name :: names => by
      refine Prog.Returns.bind (Q := fun _ => True)
        (Prog.returns_of (fun _ => trivial) _) fun ms _ => ?_
      exact (names_bucketInfos names).bind fun infos h => by
        change (name :: infos.map BucketInfo.name) = name :: names
        rw [h]

/-- The buckets that are listed are those whose directory is there. -/
theorem listBuckets_names (hs : Shaped env.fits w.tree) (hd : w.tree.IsDir bucketsDir) :
    ∃ l, (runAlone env (serve C .listBuckets) w).1 = .ok (.buckets l) ∧
      ∀ x ∈ l, w.tree.IsDir (bucketDir x.name) := by
  have hperm := env.order_perm w.tick (w.tree.children bucketsDir)
  generalize hent : env.order w.tick (w.tree.children bucketsDir) = entries at hperm
  have hread : (liftIo (TokioFs.readDir bucketsDir)).run.run (engineExec env) w =
      (.ok entries, { w with tick := w.tick + 1 }) := by
    refine liftIo_run (r := .ok entries) ?_
    have hok : w.fs.readDir env.fits _ = _ := Fs.readDir_ok (hs.fit_of_isDir hd) hd
    refine (StdFs.readDir_run (L := LockName) bucketsDir w).trans ?_
    rw [hok, ← hent]
    rfl
  obtain ⟨⟨infos, w'⟩, hinfos⟩ : ∃ r, (bucketInfos C (entries.filterMap bucketEntry)).run
    (engineExec env) { w with tick := w.tick + 1 } = r := ⟨_, rfl⟩
  have names := (names_bucketInfos (C := C) (entries.filterMap bucketEntry)).run (engineExec env)
    { w with tick := w.tick + 1 }
  rw [hinfos] at names
  refine ⟨infos.insertionSort fun a b => strLe a.name b.name, ?_, fun x hx => ?_⟩
  · rw [runAlone, serve, listBuckets, bind_assoc, Prog.run_bind_ok hread, bind_assoc,
      Prog.run_bind_lift hinfos]
    rfl
  · have hname : x.name ∈ entries.filterMap bucketEntry :=
      names ▸ List.mem_map_of_mem ((List.mem_insertionSort _).mp hx)
    obtain ⟨⟨n, kd⟩, he, hb⟩ := List.mem_filterMap.mp hname
    obtain ⟨rfl, rfl, -⟩ := bucketEntry_eq_some.mp hb
    obtain ⟨y, hy, hk⟩ := FileTree.mem_children.mp (hperm.mem_iff.mp he)
    obtain ⟨j, rfl⟩ := Node.kind_eq_dir.mp hk
    exact ⟨j, hy⟩

/-- **A failed `create_bucket` leaves no bucket.** If one filesystem call of it fails, other than
the `mkdir` of a bucket that is there and the `fsync` of `buckets/`, and the answer is an error
other than that the bucket exists, then the bucket is not there, is not listed and can be created,
and no file and no directory has changed. -/
theorem createBucket_fault (C : Crates) (env : Env OsName) (w : World OsName) (b : String)
    (hown : OwnNames env) (hr : Ready env.fits w.tree) (s : Sys OsName LockName)
    (hs : MayFail w.tree b s) (out : Resp × World OsName)
    (run : FaultRun env s ((serve C (.createBucket b)).interp Op.code) w out) (x : EngineError)
    (herr : out.1 = .error x) (hx : x ≠ .bucketAlreadyExists) :
    (runAlone env (serve C (.bucketExists b)) out.2).1 = .ok (.found false) ∧
      (∃ l, (runAlone env (serve C .listBuckets) out.2).1 = .ok (.buckets l) ∧
        b ∉ l.map BucketInfo.name) ∧
      (runAlone env (serve C (.createBucket b)) out.2).1 = .ok .unit ∧ Unchanged w out.2 := by
  obtain ⟨hv, hd, same⟩ := createBucket_unchanged hown hr hs run herr hx
  have hr' := same.ready hr
  have hd' : ¬ out.2.tree.IsDir (bucketDir b) := fun h => hd ((same.dir _).mp h)
  refine ⟨?_, ?_, ?_, same⟩
  · obtain ⟨w', hrun, -⟩ := bucketExists_run (C := C) hr'.shaped fun hv => hown.bucket_fit hv
    rw [hrun, if_pos hv]
    simp [hd']
  · obtain ⟨l, hrun, hl⟩ := listBuckets_names (C := C) hr'.shaped hr'.buckets
    refine ⟨l, hrun, fun hmem => ?_⟩
    obtain ⟨info, hi, rfl⟩ := List.mem_map.mp hmem
    exact hd' (hl info hi)
  · obtain ⟨w', hrun, -⟩ := createBucket_run (C := C) hown hr' hv hd'
    rw [hrun]

/-- A store that was just opened in an empty directory. -/
def openedStore : World OsName :=
  (runAlone sampleEnv (serve sampleCrates .openEngine) (World.empty OsName)).2

theorem ready_openedStore : Ready sampleEnv.fits openedStore.tree := by
  have shaped : Shaped sampleEnv.fits (World.empty OsName).tree := by
    refine ⟨fun p x hx hne => ?_, fun p hp n _ => rfl⟩
    cases p with
    | nil => exact absurd rfl hne
    | cons n p => cases hx
  obtain ⟨w', hrun, ready, -⟩ := openEngine_run (C := sampleCrates) (.of_all fun _ => rfl) shaped
    fun bytes h => nomatch (show none = some bytes from h)
  rw [openedStore, hrun]
  exact ready

/-- The write of the metadata of the first bucket. -/
def metaWrite : Sys OsName LockName :=
  .append (tmpName (sampleEnv.uuid openedStore.tick) :: tmpDir)
    (utf8 "\x7b\"created_epoch_ms\":0\x7d")

/-- That write stops after three bytes. -/
theorem createBucket_fault_write : ∃ out,
    FaultRun sampleEnv metaWrite ((serve sampleCrates (.createBucket "abc")).interp Op.code)
      openedStore out ∧
    out.1 = .error (.ofIo ErrorKind.storageFull.os) ∧
    (runAlone sampleEnv (serve sampleCrates (.createBucket "abc")) out.2).1 = .ok .unit := by
  obtain ⟨out, run, herr⟩ : ∃ out, FaultRun sampleEnv metaWrite
      ((serve sampleCrates (.createBucket "abc")).interp Op.code) openedStore out ∧
      out.1 = .error (.ofIo ErrorKind.storageFull.os) :=
    ⟨_, .later (.later (.later (.later (.later (.later (.here ErrorKind.storageFull.os 3 rfl)))))),
      by decide +kernel⟩
  have hs : MayFail openedStore.tree "abc" metaWrite := ⟨nofun, nofun, nofun⟩
  exact ⟨out, run, herr, (createBucket_fault sampleCrates sampleEnv openedStore "abc"
    (.of_all fun _ => rfl) ready_openedStore metaWrite hs out run _ herr (by decide)).2.2.1⟩

/-- The same store, with a bucket. -/
def bucketStore : World OsName :=
  (runAlone sampleEnv (serve sampleCrates (.createBucket "abc")) openedStore).2

/-- A `mkdir` that fails says nothing about the bucket, which is there. -/
theorem createBucket_fault_mkdir_existing : ∃ out,
    FaultRun sampleEnv (.mkdir (bucketDir "abc"))
      ((serve sampleCrates (.createBucket "abc")).interp Op.code) bucketStore out ∧
    out.1 = .error (.ofIo ErrorKind.other.os) ∧
    (runAlone sampleEnv (serve sampleCrates (.bucketExists "abc")) out.2).1 = .ok
    (.found true) := by
  have run : FaultRun sampleEnv (.mkdir (bucketDir "abc"))
      ((serve sampleCrates (.createBucket "abc")).interp Op.code) bucketStore _ :=
    .later (.later (.here ErrorKind.other.os 0 rfl))
  exact ⟨_, run, by decide +kernel, by decide +kernel⟩

end Aks3.Engine
