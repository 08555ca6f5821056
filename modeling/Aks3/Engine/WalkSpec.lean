import Aks3.Engine.Reads

/-!
# The walk finds every key

Run alone on any tree, the walk reads every directory below `objects/` that it can
come to by names it follows, each once (`sortedKeys_visits`). The stack holds
directories none of which is inside another; the number of directories below the
stack goes down with every round, so the bound is never reached. On a tree where the
directories it finds are the keys' own, it returns, in ascending order, the keys whose
directory holds a manifest (`sortedKeys_run` for the trees the engine lays out).
-/

set_option autoImplicit false

namespace Aks3.Engine

open Lib

variable {env : Env OsName} {w : World OsName} {b : String}

/-- A key has a manifest. -/
def HasManifest (t : FileTree OsName) (b k : String) : Prop :=
  t.find (Place.manifest b k).path ≠ none

/-! ## One directory -/

theorem not_reserved_of_mem {k : String} {n : OsName} (h : n ∈ keyToRelPath k) :
    ∃ c, n = utf8 (encodeComponent c) ∧ '/' ∉ c.toList ∧ ¬ Reserved (encodeComponent c) := by
  obtain ⟨c, hc, hn⟩ := mem_keyToRelPath h
  exact ⟨c, hn, hc, encodeComponent_not_reserved c⟩

/-- The subdirectories the walk descends into, as names. -/
theorem mem_dirEntries_children {entries : List (OsName × Kind)} {n : OsName} :
    n ∈ (dirEntries entries).children ↔ ∃ e ∈ entries, ∃ d, childOf e = some (d, n) := by
  simp only [dirEntries, List.mem_map, List.mem_insertionSort, List.mem_filterMap, Prod.exists,
    exists_eq_right]
  constructor
  · rintro ⟨d, n', k, hmem, hc⟩
    exact ⟨n', k, hmem, d, hc⟩
  · rintro ⟨n', k, hmem, d, hc⟩
    exact ⟨d, n', k, hmem, hc⟩

theorem childOf_snd {e : OsName × Kind} {d : String} {n : OsName} (h : childOf e = some (d, n)) :
    n = e.1 ∧ e.2 = .dir := by
  unfold childOf at h
  split at h
  · cases h
  · split at h
    · cases h
    · split at h
      · cases h
      · split at h
        · cases h
        · split at h
          · rename_i hk
            cases h
            exact ⟨rfl, hk⟩
          · cases h

/-- A directory of the key tree is one the walk descends into. -/
theorem childOf_key {k : String} {n : OsName} (h : n ∈ keyToRelPath k) :
    ∃ d, childOf (n, .dir) = some (d, n) := by
  obtain ⟨c, rfl, hc, hr⟩ := not_reserved_of_mem h
  refine ⟨c, ?_⟩
  have hmeta : encodeComponent c ≠ META_FILE := fun he => hr (he ▸ reserved_metaFile)
  simp only [childOf, fromUtf8_utf8, if_neg hmeta, if_neg hr, decodeComponent_encodeComponent hc,
    if_true]

theorem nodup_dirEntries_children {entries : List (OsName × Kind)}
    (h : (entries.map Prod.fst).Nodup) : (dirEntries entries).children.Nodup := by
  have hperm := (List.perm_insertionSort (fun a b : String × OsName => strLe a.1 b.1)
    (entries.filterMap childOf)).map Prod.snd
  refine hperm.nodup_iff.mpr ?_
  induction entries with
  | nil => simp
  | cons e entries ih =>
      rw [List.map_cons, List.nodup_cons] at h
      have hrest := ih h.2 ((List.perm_insertionSort _ _).map Prod.snd)
      rw [List.filterMap_cons]
      cases hc : childOf e with
      | none => exact hrest
      | some x =>
          obtain ⟨d, n⟩ := x
          rw [List.map_cons, List.nodup_cons]
          refine ⟨?_, hrest⟩
          intro hmem
          obtain ⟨⟨d', n'⟩, hx, hn⟩ := List.mem_map.mp hmem
          obtain ⟨e', he', hc'⟩ := List.mem_filterMap.mp hx
          refine h.1 (List.mem_map.mpr ⟨e', he', ?_⟩)
          rw [← (childOf_snd hc').1, ← (childOf_snd hc).1]
          exact hn

theorem hasManifest_dirEntries {entries : List (OsName × Kind)} :
    (dirEntries entries).hasManifest = true ↔ ∃ k, (utf8 META_FILE, k) ∈ entries := by
  simp only [dirEntries, List.any_eq_true, isManifest, decide_eq_true_eq, Prod.exists,
    fromUtf8_eq_some]
  constructor
  · rintro ⟨n, k, hmem, rfl⟩
    exact ⟨k, hmem⟩
  · rintro ⟨k, hmem⟩
    exact ⟨_, k, hmem, rfl⟩

/-! ## The loop -/

/-- The directories waiting to be read are directories of the object tree, none
inside another. -/
structure Pending (t : FileTree OsName) (b : String) (stack : List (Path OsName × Path OsName)) :
    Prop where
  dir : ∀ e ∈ stack, e.1 = e.2 ++ objectsDir (bucketDir b) ∧ t.IsDir e.1
  apart : stack.Pairwise fun e e' => ¬ e.1 <:+ e'.1 ∧ ¬ e'.1 <:+ e.1

/-- The nodes at or below a directory that waits to be read. -/
def ahead (t : FileTree OsName) (stack : List (Path OsName × Path OsName)) :
    Finset (Path OsName) :=
  t.nodes.keys.toFinset.filter fun q => ∃ e ∈ stack, e.1 <:+ q

theorem Pending.step {t : FileTree OsName} {dir rel : Path OsName}
    {stack : List (Path OsName × Path OsName)} {cs : List OsName}
    (h : Pending t b ((dir, rel) :: stack)) (hcs : cs.Nodup) (hd : ∀ c ∈ cs, t.IsDir (c :: dir)) :
    Pending t b (cs.map (fun name => (name :: dir, name :: rel)) ++ stack) where
  dir := by
    intro e he
    rcases List.mem_append.mp he with he | he
    · obtain ⟨c, hc, rfl⟩ := List.mem_map.mp he
      have hroot : dir = rel ++ _ := (h.dir _ List.mem_cons_self).1
      exact ⟨by rw [List.cons_append, ← hroot], hd c hc⟩
    · exact h.dir e (List.mem_cons_of_mem _ he)
  apart := by
    have hap := List.pairwise_cons.mp h.apart
    refine List.pairwise_append.mpr ⟨?_, hap.2, ?_⟩
    · refine List.pairwise_map.mpr (hcs.imp fun hne => ⟨?_, ?_⟩)
      · exact StdFs.not_suffix_of_ne hne
      · exact StdFs.not_suffix_of_ne hne.symm
    · intro e he e' he'
      obtain ⟨c, -, rfl⟩ := List.mem_map.mp he
      have hdir := hap.1 e' he'
      refine ⟨fun hs => hdir.1 ((List.suffix_cons c dir).trans hs), fun hs => ?_⟩
      rcases List.suffix_cons_iff.mp hs with heq | hs
      · exact hdir.1 (heq ▸ List.suffix_cons c dir)
      · exact hdir.2 hs

/-- The directory read last is not ahead any more. -/
theorem Pending.not_ahead {t : FileTree OsName} {dir rel : Path OsName}
    {stack : List (Path OsName × Path OsName)} (h : Pending t b ((dir, rel) :: stack))
    (cs : List OsName) {e : Path OsName × Path OsName}
    (he : e ∈ cs.map (fun name => (name :: dir, name :: rel)) ++ stack) : ¬ e.1 <:+ dir := by
  intro hs
  rcases List.mem_append.mp he with he | he
  · obtain ⟨c, -, rfl⟩ := List.mem_map.mp he
    have := hs.length_le
    rw [List.length_cons] at this
    omega
  · exact ((List.pairwise_cons.mp h.apart).1 e he).2 hs

/-- Every round has fewer nodes ahead of it. -/
theorem ahead_step {t : FileTree OsName} {dir rel : Path OsName}
    {stack : List (Path OsName × Path OsName)} (h : Pending t b ((dir, rel) :: stack))
    (cs : List OsName) :
    (ahead t (cs.map (fun name => (name :: dir, name :: rel)) ++ stack)).card <
      (ahead t ((dir, rel) :: stack)).card := by
  refine Finset.card_lt_card ⟨fun q hq => ?_, fun hsub => ?_⟩
  · obtain ⟨hk, e, he, hs⟩ := Finset.mem_filter.mp hq
    refine Finset.mem_filter.mpr ⟨hk, ?_⟩
    rcases List.mem_append.mp he with he | he
    · obtain ⟨c, -, rfl⟩ := List.mem_map.mp he
      exact ⟨_, List.mem_cons_self, (List.suffix_cons c dir).trans hs⟩
    · exact ⟨e, List.mem_cons_of_mem _ he, hs⟩
  · obtain ⟨hroot, i, hi⟩ := h.dir _ List.mem_cons_self
    have hkey : dir ∈ t.nodes.keys.toFinset := by
      have hne : dir ≠ [] := by
        simp only at hroot
        simp [hroot, objectsDir]
      have hbelow : dir ∈ t.below [] :=
        FileTree.mem_below.mpr ⟨hne, by simp [hi], List.nil_suffix, hne⟩
      exact (Finset.mem_filter.mp hbelow).1
    have hin : dir ∈ ahead t ((dir, rel) :: stack) :=
      Finset.mem_filter.mpr ⟨hkey, _, List.mem_cons_self, List.suffix_rfl⟩
    obtain ⟨-, e, he, hs⟩ := Finset.mem_filter.mp (hsub hin)
    exact h.not_ahead cs he hs

/-! ## Where the walk comes to -/

/-- A directory of this name is descended into. -/
def Descends (n : OsName) : Prop := ∃ d, childOf (n, .dir) = some (d, n)

/-- The walk comes to the directory `rel` below `objects/`. -/
def Visits (t : FileTree OsName) (b : String) (rel : Path OsName) : Prop :=
  t.IsDir (rel ++ objectsDir (bucketDir b)) ∧ ∀ n ∈ rel, Descends n

/-- What the directory `rel` adds to the keys. -/
def keyAt (t : FileTree OsName) (b : String) (rel : Path OsName) : List String :=
  foundKey ⟨decide (t.find (utf8 META_FILE :: (rel ++ objectsDir (bucketDir b))) ≠ none), []⟩ rel

theorem mem_keyAt {t : FileTree OsName} {rel : Path OsName} {k : String} :
    k ∈ keyAt t b rel ↔ rel ≠ [] ∧
      t.find (utf8 META_FILE :: (rel ++ objectsDir (bucketDir b))) ≠ none ∧
        relPathToKey rel = .ok k := by
  unfold keyAt foundKey
  split
  · rename_i h
    simp only [Bool.and_eq_true, decide_eq_true_eq, Bool.not_eq_true', List.isEmpty_eq_false_iff]
      at h
    cases hk : relPathToKey rel with
    | error e => simp
    | ok k' => simp [h, eq_comm]
  · rename_i h
    simp only [Bool.and_eq_true, decide_eq_true_eq, Bool.not_eq_true', List.isEmpty_eq_false_iff,
      not_and] at h
    simp only [List.not_mem_nil, false_iff, not_and]
    exact fun hne hm => absurd hne (h hm)

theorem nodup_keyAt (t : FileTree OsName) (rel : Path OsName) : (keyAt t b rel).Nodup := by
  unfold keyAt foundKey
  split
  · cases relPathToKey rel <;> simp
  · exact List.nodup_nil

/-- The names of a key's path are followed. -/
theorem descends_of_mem {k : String} {n : OsName} (h : n ∈ keyToRelPath k) : Descends n :=
  childOf_key h

/-- A longer path goes on with some name. -/
theorem exists_cons_suffix {rel rel' : Path OsName} (h : rel <:+ rel') (hne : rel' ≠ rel) :
    ∃ n, n :: rel <:+ rel' := by
  obtain ⟨r, rfl⟩ := h
  cases hlast : r.getLast? with
  | none =>
      rw [List.getLast?_eq_none_iff] at hlast
      exact absurd (by rw [hlast, List.nil_append]) hne
  | some n =>
      obtain ⟨r', rfl⟩ := List.getLast?_eq_some_iff.mp hlast
      exact ⟨n, r', by rw [List.append_assoc]; rfl⟩

theorem readObjectDir_run {dir : Path OsName} (hf : Fit env.fits dir) (hd : w.tree.IsDir dir) :
    ∃ w', (readObjectDir dir).run (World.exec env) w =
      (.ok (dirEntries (env.order w.tick (w.tree.children dir))), w') ∧ w.Ticked w' := by
  refine ⟨{ w with tick := w.tick + 1 }, ?_, ⟨rfl, rfl⟩⟩
  rw [readObjectDir, Prog.run_bind, StdFs.readDir_run, Fs.readDir_ok hf hd]
  rfl

theorem readObjectDir_missing {dir : Path OsName} (hf : Fit env.fits dir)
    (hc : w.tree.Clear dir) (hd : w.tree.find dir = none) :
    (readObjectDir dir).run (World.exec env) w =
      (.ok ⟨false, []⟩, { w with tick := w.tick + 1 }) := by
  rw [readObjectDir, Prog.run_bind, StdFs.readDir_run, Fs.readDir_missing hf hc hd]
  rfl

/-- What reading one directory of the tree tells. -/
theorem dirEntries_children (env : Env OsName) (w : World OsName) {dir rel : Path OsName}
    (hroot : dir = rel ++ objectsDir (bucketDir b)) (tick : Nat) :
    (dirEntries (env.order tick (w.tree.children dir))).children.Nodup ∧
      (∀ n, n ∈ (dirEntries (env.order tick (w.tree.children dir))).children ↔
        w.tree.IsDir (n :: dir) ∧ Descends n) ∧
      foundKey (dirEntries (env.order tick (w.tree.children dir))) rel = keyAt w.tree b rel := by
  have hperm := env.order_perm tick (w.tree.children dir)
  generalize env.order tick (w.tree.children dir) = entries at hperm ⊢
  have hmem : ∀ n k, (n, k) ∈ entries ↔ ∃ x, w.tree.find (n :: dir) = some x ∧ x.kind = k :=
    fun n k => hperm.mem_iff.trans FileTree.mem_children
  refine ⟨nodup_dirEntries_children
    ((hperm.map Prod.fst).nodup_iff.mpr (FileTree.nodup_children _ _)), fun n => ?_, ?_⟩
  · rw [mem_dirEntries_children]
    constructor
    · rintro ⟨⟨n', k⟩, he, d, hcd⟩
      obtain ⟨rfl, rfl⟩ := childOf_snd hcd
      obtain ⟨x, hx, hk⟩ := (hmem _ _).mp he
      obtain ⟨j, rfl⟩ := Node.kind_eq_dir.mp hk
      exact ⟨⟨j, hx⟩, d, hcd⟩
    · rintro ⟨⟨j, hj⟩, d, hcd⟩
      exact ⟨_, (hmem n .dir).mpr ⟨_, hj, rfl⟩, d, hcd⟩
  · have hm : (dirEntries entries).hasManifest =
        decide (w.tree.find (utf8 META_FILE :: (rel ++ objectsDir (bucketDir b))) ≠ none) := by
      rw [Bool.eq_iff_iff, decide_eq_true_iff, hasManifest_dirEntries, ← hroot]
      simp only [hmem, Option.ne_none_iff_exists']
      exact ⟨fun ⟨_, x, hx, _⟩ => ⟨x, hx⟩, fun ⟨x, hx⟩ => ⟨_, x, hx, rfl⟩⟩
    rw [keyAt, foundKey, foundKey, hm]

theorem walkLoop_nil (fuel : Nat) (keys : List String) :
    walkLoop fuel [] keys = pure (.ok keys) := by
  cases fuel <;> rfl

/-- Alone, the loop comes to the directories its stack leads to, each once. -/
theorem walkLoop_visits : ∀ (fuel : Nat) (stack : List (Path OsName × Path OsName))
    (keys : List String) (w : World OsName), (∀ p, w.tree.find p ≠ none → Fit env.fits p) →
    Pending w.tree b stack → (∀ e ∈ stack, ∀ n ∈ e.2, Descends n) →
    (ahead w.tree stack).card ≤ fuel →
    ∃ (rels : List (Path OsName)) (w' : World OsName), (walkLoop fuel stack keys).run
      (World.exec env) w =
        (.ok (keys ++ rels.flatMap (keyAt w.tree b)), w') ∧
      w.Ticked w' ∧ rels.Nodup ∧ ∀ rel, rel ∈ rels ↔
        Visits w.tree b rel ∧ ∃ e ∈ stack, e.2 <:+ rel
  | fuel, [], keys, w, _, _, _, _ => by
      refine ⟨[], w, ?_, .refl w, List.nodup_nil, by simp⟩
      rw [walkLoop_nil, List.flatMap_nil, List.append_nil]
      rfl
  | 0, (dir, rel) :: stack, keys, w, _, hp, _, hb => by
      have := ahead_step hp []
      omega
  | fuel + 1, (dir, rel) :: stack, keys, w, hfit, hp, hfol, hb => by
      obtain ⟨hroot, hd⟩ := hp.dir _ List.mem_cons_self
      simp only at hroot hd
      obtain ⟨i, hi⟩ := hd
      obtain ⟨w₁, hread, ht₁⟩ := readObjectDir_run (hfit dir (by simp [hi])) ⟨i, hi⟩
      have htree : w₁.tree = w.tree := by rw [World.tree, ht₁.fs]
      obtain ⟨hnodup, hchild, hkey⟩ := dirEntries_children env w hroot w.tick
      generalize dirEntries (env.order w.tick (w.tree.children dir)) = entries at *
      have hp' := hp.step hnodup fun c hc => ((hchild c).mp hc).1
      have hfol' : ∀ e ∈ entries.children.map (fun name => (name :: dir, name :: rel)) ++ stack,
          ∀ n ∈ e.2, Descends n := by
        intro e he n hn
        rcases List.mem_append.mp he with he | he
        · obtain ⟨c, hc, rfl⟩ := List.mem_map.mp he
          rcases List.mem_cons.mp hn with rfl | hn
          · exact ((hchild _).mp hc).2
          · exact hfol _ List.mem_cons_self n hn
        · exact hfol e (List.mem_cons_of_mem _ he) n hn
      obtain ⟨rels, w', hrun, ht, hnd, hrels⟩ := walkLoop_visits fuel _
        (keys ++ foundKey entries rel) w₁ (htree ▸ hfit) (htree ▸ hp') hfol'
        (by
          have := ahead_step hp entries.children
          rw [htree]
          omega)
      rw [htree] at hrun hrels
      refine ⟨rel :: rels, w', ?_, ht₁.trans ht, ?_, fun r => ?_⟩
      · rw [walkLoop, Prog.run_bind, hread, List.flatMap_cons, ← hkey, ← List.append_assoc]
        exact hrun
      · refine List.nodup_cons.mpr ⟨fun hmem => ?_, hnd⟩
        obtain ⟨-, e, he, hsuf⟩ := (hrels rel).mp hmem
        refine hp.not_ahead _ he ?_
        rw [hroot, (hp'.dir e he).1]
        exact List.suffix_append_self_iff.mpr hsuf
      · rw [List.mem_cons, hrels]
        constructor
        · rintro (rfl | ⟨hv, e, he, hsuf⟩)
          · exact ⟨⟨⟨i, hroot ▸ hi⟩, hfol _ List.mem_cons_self⟩, _, List.mem_cons_self,
              List.suffix_rfl⟩
          · refine ⟨hv, ?_⟩
            rcases List.mem_append.mp he with he | he
            · obtain ⟨c, -, rfl⟩ := List.mem_map.mp he
              exact ⟨_, List.mem_cons_self, (List.suffix_cons c rel).trans hsuf⟩
            · exact ⟨e, List.mem_cons_of_mem _ he, hsuf⟩
        · rintro ⟨hv, e, he, hsuf⟩
          rcases List.mem_cons.mp he with rfl | he
          · by_cases hr : r = rel
            · exact .inl hr
            · obtain ⟨n, hn⟩ := exists_cons_suffix hsuf hr
              have hdir : w.tree.IsDir (n :: dir) := by
                refine FileTree.isDir_of_suffix hv.1 ?_
                rw [hroot, ← List.cons_append]
                exact List.suffix_append_self_iff.mpr hn
              have hc := (hchild n).mpr ⟨hdir, hv.2 n (hn.subset List.mem_cons_self)⟩
              exact .inr ⟨hv, (n :: dir, n :: rel),
                List.mem_append_left _ (List.mem_map.mpr ⟨n, hc, rfl⟩), hn⟩
          · exact .inr ⟨hv, e, List.mem_append_right _ he, hsuf⟩

/-- **The walk comes to every directory it can come to by names it follows, once.** -/
theorem sortedKeys_visits (hfit : ∀ p, w.tree.find p ≠ none → Fit env.fits p)
    (hc : w.tree.Clear (Place.objects b).path) (hf : Fit env.fits (Place.objects b).path) :
    ∃ (rels : List (Path OsName)) (w' : World OsName), (Engine.sortedKeys
      (Place.objects b).path).run (World.exec env) w =
        (.ok ((rels.flatMap (keyAt w.tree b)).insertionSort strLe), w') ∧ w.Ticked w' ∧
      rels.Nodup ∧ ∀ rel, rel ∈ rels ↔ Visits w.tree b rel := by
  have hloop : ∃ (rels : List (Path OsName)) (w' : World OsName), (walkLoop
      (w.fs.tree.nodes.keys.length + 1 + env.slack w.tick)
        [((Place.objects b).path, [])] []).run (World.exec env) { w with tick := w.tick + 1 } =
        (.ok (rels.flatMap (keyAt w.tree b)), w') ∧ w.Ticked w' ∧ rels.Nodup ∧
          ∀ rel, rel ∈ rels ↔ Visits w.tree b rel := by
    by_cases hd : w.tree.IsDir (Place.objects b).path
    · obtain ⟨rels, w', hrun, ht, hnd, hrels⟩ := walkLoop_visits (b := b)
        (w.fs.tree.nodes.keys.length + 1 + env.slack w.tick) [((Place.objects b).path, [])] []
        { w with tick := w.tick + 1 } hfit
        ⟨by simpa using ⟨rfl, hd⟩, List.pairwise_singleton _ _⟩ (by simp)
        (by
          have hcard : (ahead w.tree [((Place.objects b).path, [])]).card ≤
              w.fs.tree.nodes.keys.length :=
            (Finset.card_filter_le _ _).trans (List.toFinset_card_le _)
          exact hcard.trans (by omega))
      refine ⟨rels, w', hrun, ⟨ht.fs, ht.clock⟩, hnd, fun rel => ?_⟩
      rw [hrels]
      exact and_iff_left ⟨_, List.mem_singleton_self _, List.nil_suffix⟩
    · -- a bucket without objects has no tree to walk
      have hnone : w.tree.find (Place.objects b).path = none := by
        cases hx : w.tree.find (Place.objects b).path with
        | none => rfl
        | some x =>
            cases x with
            | dir i => exact absurd ⟨i, hx⟩ hd
            | file i d => exact absurd hx (hc _ List.suffix_rfl i d)
      refine ⟨[], { w with tick := w.tick + 2 }, ?_, ⟨rfl, rfl⟩, List.nodup_nil, fun rel => ?_⟩
      · have hread := readObjectDir_missing (w := { w with tick := w.tick + 1 }) hf hc hnone
        rw [Nat.add_right_comm, walkLoop, Prog.run_bind, hread]
        simp only [List.map_nil, List.append_nil, walkLoop_nil]
        rfl
      · simp only [List.not_mem_nil, false_iff]
        exact fun hv => hd (FileTree.isDir_of_suffix hv.1 (List.suffix_append _ _))
  obtain ⟨rels, w', hrun, ht, hnd, hrels⟩ := hloop
  refine ⟨rels, w', ?_, ht, hnd, hrels⟩
  have hbudget : (StdFs.budget : WalkProg Nat).run (World.exec env) w =
      (w.fs.tree.nodes.keys.length + 1 + env.slack w.tick, { w with tick := w.tick + 1 }) := rfl
  rw [Engine.sortedKeys, Prog.run_bind, hbudget]
  simp only
  rw [Prog.run_bind, hrun]
  rfl

/-! ## Trees whose directories are the keys' own -/

/-- A directory that adds a key is that key's own. -/
def Canonical (t : FileTree OsName) (b : String) : Prop :=
  ∀ rel k, Visits t b rel → k ∈ keyAt t b rel → rel = keyToRelPath k

/-- A key with a manifest is found in its own directory. -/
theorem HasManifest.visits {t : FileTree OsName} {k : String} (h : HasManifest t b k) :
    Visits t b (keyToRelPath k) ∧ k ∈ keyAt t b (keyToRelPath k) :=
  ⟨⟨FileTree.isDir_of_find h, fun _ hn => descends_of_mem hn⟩,
    mem_keyAt.mpr ⟨keyToRelPath_ne_nil k, h, relPathToKey_keyToRelPath k⟩⟩

/-- What the walk returns there: the keys that have a manifest, in ascending order. -/
theorem Canonical.keys {t : FileTree OsName} (h : Canonical t b) {rels : List (Path OsName)}
    (hnd : rels.Nodup) (hrels : ∀ rel, rel ∈ rels ↔ Visits t b rel) :
    ((rels.flatMap (keyAt t b)).insertionSort strLe).Pairwise (fun x y => utf8 x < utf8 y) ∧
      ∀ k, k ∈ (rels.flatMap (keyAt t b)).insertionSort strLe ↔ HasManifest t b k := by
  refine ⟨ascending_insertionSort id ?_, fun k => ?_⟩
  · rw [List.map_id, List.nodup_flatMap]
    refine ⟨fun rel _ => nodup_keyAt t rel, hnd.imp_of_mem fun {r r'} hr hr' hne k hk hk' => ?_⟩
    exact hne ((h r k ((hrels r).mp hr) hk).trans (h r' k ((hrels r').mp hr') hk').symm)
  · rw [List.mem_insertionSort, List.mem_flatMap]
    constructor
    · rintro ⟨rel, hrel, hk⟩
      obtain rfl := h rel k ((hrels rel).mp hrel) hk
      exact (mem_keyAt.mp hk).2.1
    · intro hk
      exact ⟨_, (hrels _).mpr hk.visits.1, hk.visits.2⟩

/-- A directory of the object tree the engine lays out is the directory of a key. -/
theorem canonical_of_shaped {t : FileTree OsName} (hs : Shaped env.fits t) : Canonical t b := by
  intro rel k hv hk
  obtain ⟨hne, -, hkey⟩ := mem_keyAt.mp hk
  obtain ⟨i, hi⟩ := hv.1
  obtain ⟨pl, hpl, hkind⟩ := hs.place _ _ hi (by simp [objectsDir])
  obtain ⟨k', rfl | rfl | rfl⟩ := Place.of_objects hne hpl
  · obtain rfl := List.append_cancel_right hpl
    rw [relPathToKey_keyToRelPath] at hkey
    rw [Except.ok.inj hkey]
  · cases hkind
  · cases hkind

/-- **The walk returns the keys that have a manifest, in ascending order.** -/
theorem sortedKeys_run (hs : Shaped env.fits w.tree) (hf : Fit env.fits (Place.objects b).path) :
    ∃ keys w', (Engine.sortedKeys (Place.objects b).path).run (World.exec env) w = (.ok keys, w') ∧
      w.Ticked w' ∧ keys.Pairwise (fun x y => utf8 x < utf8 y) ∧
      ∀ k, k ∈ keys ↔ HasManifest w.tree b k := by
  obtain ⟨rels, w', hrun, ht, hnd, hrels⟩ :=
    sortedKeys_visits hs.fit (hs.clear (.objects b) rfl) hf
  exact ⟨_, w', hrun, ht, (canonical_of_shaped hs).keys hnd hrels⟩

end Aks3.Engine
