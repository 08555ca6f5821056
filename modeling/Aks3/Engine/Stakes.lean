import Aks3.Engine.Threads
import Aks3.Lib.Contents

/-!
# Staged files and those who write them

Whoever stages a file has its name to itself, since the name was drawn and is never drawn again. So
what it knows of the file's bytes stays true while others run (`Staked`), and a rename, which is the
one way a file gets a name outside the staging directory, publishes bytes that are known. `stakeOut`
is the discipline of such writers, for any choice of what may stand where.
-/

set_option autoImplicit false

namespace Aks3.Engine

open Lib

/-! ## What a writer knows of its files -/

/-- The files one writer has to itself, each with its bytes as far as they are known. -/
abbrev Stakes := Path OsName → Option (Option Bytes)

/-- A file of the staging directory. -/
def InTmp (p : Path OsName) : Prop := ∃ n, p = n :: tmpDir

/-- Only one's own files are written, and only those whose bytes may stand at a path are renamed to
it. What is read outside the staging directory may stand where it is. -/
def publishing (Fine : Path OsName → Bytes → Prop) : Protocol (sysSig OsName LockName) Stakes where
  pre a
    | .createNew p => a p ≠ none
    | .append p _ => a p ≠ none
    | .rename src dst => ¬ InTmp dst ∧ ∃ bs, a src = some (some bs) ∧ Fine dst bs
    | _ => True
  post a
    | .uuid, u, a' => a' = Function.update a (tmpName u :: tmpDir) (some none)
    | .createNew p, .ok _, a' => a' = Function.update a p (some (some []))
    | .append p bs, .ok _, a' => a' = Function.update a p ((a p).map fun d => d.map (· ++ bs))
    | .append p _, .error _, a' => a' = Function.update a p (some none)
    | .readFile p, .ok d, a' => a' = a ∧ (InTmp p ∨ Fine p d)
    | _, _, a' => a' = a

/-- What the stakes of all writers say about the machine. -/
structure Staked (env : Env OsName) (Fine : Path OsName → Bytes → Prop) (w : World OsName)
    (acc : Owner → Stakes) : Prop where
  /-- No two writers have a file in common. -/
  apart : ∀ u v p, acc u p ≠ none → acc v p ≠ none → u = v
  drawn : ∀ u p, acc u p ≠ none → ∃ i, i < w.tick ∧ p = tmpName (env.uuid i) :: tmpDir
  /-- A file may be gone, but has no other bytes than those its writer knows. -/
  bytes : ∀ u p bs d, acc u p = some (some bs) → w.tree.fileAt p = some d → d = bs
  fine : ∀ p d, w.tree.fileAt p = some d → InTmp p ∨ Fine p d

section Steps

variable {env : Env OsName} {Fine : Path OsName → Bytes → Prop} {w : World OsName}
  {acc : Owner → Stakes}

theorem tmpName_injective : Function.Injective tmpName := by
  intro u v h
  have := utf8_inj.mp h
  simpa [String.ext_iff] using this

/-- A writer's step that touches none of the others' files. -/
theorem Staked.update (h : Staked env Fine w acc) {w' : World OsName} {u : Owner} {a : Stakes}
    (tick : w.tick ≤ w'.tick)
    (own : ∀ p, a p ≠ none → acc u p ≠ none ∨ ∃ i, w.tick ≤ i ∧ i < w'.tick ∧
      p = tmpName (env.uuid i) :: tmpDir)
    (mine : ∀ p bs d, a p = some (some bs) → w'.tree.fileAt p = some d → d = bs)
    (files : ∀ p d, w'.tree.fileAt p = some d →
      w.tree.fileAt p = some d ∨ acc u p ≠ none ∨ ¬ InTmp p ∧ Fine p d) :
    Staked env Fine w' (Function.update acc u a) := by
  -- A name the writer has now is not another's: it had it before, or has just drawn it.
  have free : ∀ v p, v ≠ u → a p ≠ none → acc v p = none := by
    intro v p hv hp
    by_contra hne
    rcases own p hp with hown | ⟨i, hi, -, rfl⟩
    · exact hv (h.apart v u p hne hown)
    · obtain ⟨j, hj, heq⟩ := h.drawn v _ hne
      have := env.uuid_injective (tmpName_injective (List.cons.inj heq).1)
      omega
  have inTmp : ∀ v p, acc v p ≠ none → InTmp p := by
    intro v p hp
    obtain ⟨i, -, rfl⟩ := h.drawn v p hp
    exact ⟨_, rfl⟩
  refine ⟨?_, ?_, ?_, ?_⟩
  · intro v v' p hv hv'
    by_cases huv : v = u <;> by_cases huv' : v' = u
    · rw [huv, huv']
    · subst huv
      rw [Function.update_self] at hv
      rw [Function.update_of_ne huv'] at hv'
      exact absurd (free v' p huv' hv) hv'
    · subst huv'
      rw [Function.update_self] at hv'
      rw [Function.update_of_ne huv] at hv
      exact absurd (free v p huv hv') hv
    · rw [Function.update_of_ne huv] at hv
      rw [Function.update_of_ne huv'] at hv'
      exact h.apart v v' p hv hv'
  · intro v p hv
    by_cases huv : v = u
    · subst huv
      rw [Function.update_self] at hv
      rcases own p hv with hown | ⟨i, -, hi, rfl⟩
      · obtain ⟨i, hi, rfl⟩ := h.drawn v p hown
        exact ⟨i, hi.trans_le tick, rfl⟩
      · exact ⟨i, hi, rfl⟩
    · rw [Function.update_of_ne huv] at hv
      obtain ⟨i, hi, rfl⟩ := h.drawn v p hv
      exact ⟨i, hi.trans_le tick, rfl⟩
  · intro v p bs d hv hd
    by_cases huv : v = u
    · subst huv
      rw [Function.update_self] at hv
      exact mine p bs d hv hd
    · rw [Function.update_of_ne huv] at hv
      have hne : acc v p ≠ none := by simp [hv]
      rcases files p d hd with hold | hown | ⟨hout, -⟩
      · exact h.bytes v p bs d hv hold
      · exact absurd (h.apart v u p hne hown) huv
      · exact absurd (inTmp v p hne) hout
  · intro p d hd
    rcases files p d hd with hold | hown | ⟨-, hfine⟩
    · exact h.fine p d hold
    · exact .inl (inTmp u p hown)
    · exact .inr hfine

/-- The writer learns nothing of one of its files, and the others stay as they are. -/
theorem update_forget {a : Stakes} {p q : Path OsName} {x : Option Bytes} (hp : a p ≠ none)
    (hq : Function.update a p (some x) q ≠ none) : a q ≠ none := by
  by_cases heq : q = p
  · exact heq ▸ hp
  · rwa [Function.update_of_ne heq] at hq

/-- A call that is made as allowed, or fails. -/
theorem Staked.call (h : Staked env Fine w acc) {u : Owner} {fault : Option (IoError × Nat)}
    {o : Sys OsName LockName} {x : o.Res × World OsName} (pre : (publishing Fine).pre (acc u) o)
    (hx : Pool.callOrFault env fault o w = some x) :
    ∃ a, (publishing Fine).post (acc u) o x.1 a ∧ Staked env Fine x.2
      (Function.update acc u a) := by
  have puts : ∀ {p d}, x.2.tree.fileAt p = some d →
      w.tree.fileAt p = some d ∧ ¬ o.Sets p x.1 ∨ o.Puts w.tree p d x.1 := by
    intro p d hd
    cases fault with
    | none =>
        cases hx
        exact World.fileAt_exec hd
    | some f => exact World.fileAt_execFault hx hd
  have tick : w.tick ≤ x.2.tick := by
    cases fault with
    | none =>
        cases hx
        exact World.tick_exec env o w
    | some f => exact (World.tick_execFault hx).ge
  -- Calls that put nothing anywhere, and tell nothing new.
  have idle : (∀ p d, ¬ o.Puts w.tree p d x.1) →
      Staked env Fine x.2 (Function.update acc u (acc u)) := by
    intro none
    have old : ∀ {p d}, x.2.tree.fileAt p = some d → w.tree.fileAt p = some d := fun hd =>
      ((puts hd).resolve_right (none _ _)).1
    exact h.update tick (fun p hp => .inl hp) (fun p bs d hp hd => h.bytes u p bs d hp (old hd))
      fun p d hd => .inl (old hd)
  -- Calls that change one file of the writer, which then knows it to be `now`, if anything.
  have wrote : ∀ {p : Path OsName} {now : Option Bytes}, acc u p ≠ none →
      (∀ q d, o.Puts w.tree q d x.1 → q = p) →
      (∀ bs d, now = some bs → x.2.tree.fileAt p = some d → d = bs) →
      Staked env Fine x.2 (Function.update acc u (Function.update (acc u) p (some now))) := by
    intro p now hp only known
    refine h.update tick (fun q hq => .inl (update_forget hp hq))
      (fun q bs d hq hd => ?_) fun q d hd => ?_
    · by_cases heq : q = p
      · subst heq
        rw [Function.update_self] at hq
        exact known bs d (Option.some.inj hq) hd
      · rw [Function.update_of_ne heq] at hq
        exact h.bytes u q bs d hq ((puts hd).resolve_right fun hput => heq (only q d hput)).1
    · rcases puts hd with hold | hput
      · exact .inl hold.1
      · exact .inr (.inl (only q d hput ▸ hp))
  cases o with
  | uuid =>
      cases fault with
      | some f => cases hx
      | none =>
          cases hx
          refine ⟨Function.update (acc u) (tmpName (env.uuid w.tick) :: tmpDir) (some none), rfl,
            h.update tick (fun p hp => ?_) (fun p bs d hp hd => ?_) fun p d hd => .inl hd⟩
          · by_cases heq : p = tmpName (env.uuid w.tick) :: tmpDir
            · exact .inr ⟨w.tick, Nat.le_refl _, Nat.lt_succ_self _, heq⟩
            · exact .inl (by rwa [Function.update_of_ne heq] at hp)
          · by_cases heq : p = tmpName (env.uuid w.tick) :: tmpDir
            · subst heq
              rw [Function.update_self] at hp
              cases hp
            · rw [Function.update_of_ne heq] at hp
              exact h.bytes u p bs d hp hd
  | createNew p =>
      obtain ⟨r, w'⟩ := x
      cases r with
      | error e => exact ⟨acc u, rfl, idle fun q d hq => by cases hq.2.1⟩
      | ok r =>
          refine ⟨_, rfl, wrote pre (fun q d hq => hq.1.symm) fun bs d hbs hd => ?_⟩
          rcases puts hd with hold | hput
          · exact absurd ⟨rfl, rfl⟩ hold.2
          · exact hput.2.2.trans (Option.some.inj hbs)
  | append p bs =>
      obtain ⟨r, w'⟩ := x
      cases r with
      | error e =>
          exact ⟨_, rfl, wrote pre (fun q d hq => hq.1.symm) fun bs' d hbs hd => by cases hbs⟩
      | ok r =>
          obtain ⟨now, hnow⟩ := Option.ne_none_iff_exists'.mp pre
          have post : (publishing Fine).post (acc u) (.append p bs) (.ok r)
              (Function.update (acc u) p (some (now.map (· ++ bs)))) := by
            change _ = Function.update (acc u) p ((acc u p).map fun d => d.map (· ++ bs))
            rw [hnow]
            rfl
          refine ⟨_, post, wrote pre (fun q d hq => hq.1.symm) fun bs' d hbs hd => ?_⟩
          obtain ⟨known, hknown, rfl⟩ := Option.map_eq_some_iff.mp hbs
          rcases puts hd with hold | ⟨-, old, hold, hd'⟩
          · exact absurd ⟨rfl, rfl⟩ hold.2
          · rw [hd' rfl, h.bytes u p known old (hknown ▸ hnow) hold]
  | rename src dst =>
      obtain ⟨hout, bs, hbs, hfine⟩ := pre
      refine ⟨acc u, rfl, h.update tick (fun q hq => .inl hq) (fun q bs' d hq hd => ?_)
        fun q d hd => ?_⟩
      · rcases puts hd with hold | ⟨rfl, -, -⟩
        · exact h.bytes u q bs' d hq hold.1
        · obtain ⟨i, -, rfl⟩ := h.drawn u dst (by simp [hq])
          exact absurd ⟨_, rfl⟩ hout
      · rcases puts hd with hold | ⟨rfl, -, hsrc⟩
        · exact .inl hold.1
        · exact .inr (.inr ⟨hout, h.bytes u src bs d hbs hsrc ▸ hfine⟩)
  | readFile p =>
      have kept := idle fun q d hq => hq.elim
      obtain ⟨r, w'⟩ := x
      cases r with
      | error e => exact ⟨acc u, rfl, kept⟩
      | ok d =>
          refine ⟨acc u, ⟨rfl, h.fine p d ?_⟩, kept⟩
          cases fault with
          | some f => cases hx
          | none => exact World.readFile_fileAt (congrArg Prod.fst (Option.some.inj hx))
  | _ => exact ⟨acc u, rfl, idle fun q d hq => hq.elim⟩

theorem Staked.hand (h : Staked env Fine w acc) (f : Owner → Option Owner)
    (hf : ∀ u v x, f u = some x → f v = some x → u = v) :
    Staked env Fine w (handOver (fun _ => none) f acc) := by
  have from_ : ∀ {u : Owner} {p : Path OsName} {y}, handOver (fun _ => none) f acc u p = some y →
      ∃ x, f u = some x ∧ acc x p = some y := by
    intro u p y hy
    rw [handOver] at hy
    cases hfu : f u with
    | none =>
        rw [hfu] at hy
        cases hy
    | some x =>
        rw [hfu] at hy
        exact ⟨x, rfl, hy⟩
  refine ⟨fun u v p hu hv => ?_, fun u p hu => ?_, fun u p bs d hu hd => ?_, h.fine⟩
  · obtain ⟨y, hy⟩ := Option.ne_none_iff_exists'.mp hu
    obtain ⟨z, hz⟩ := Option.ne_none_iff_exists'.mp hv
    obtain ⟨x, hfx, hx⟩ := from_ hy
    obtain ⟨x', hfx', hx'⟩ := from_ hz
    obtain rfl := h.apart x x' p (by simp [hx]) (by simp [hx'])
    exact hf u v x hfx hfx'
  · obtain ⟨y, hy⟩ := Option.ne_none_iff_exists'.mp hu
    obtain ⟨x, -, hx⟩ := from_ hy
    exact h.drawn x p (by simp [hx])
  · obtain ⟨x, -, hx⟩ := from_ hu
    exact h.bytes x p bs d hx hd

/-- Writers that have their staged files to themselves. -/
def stakeOut (env : Env OsName) (Fine : Path OsName → Bytes → Prop) : Discipline env Stakes where
  toProtocol := publishing Fine
  fresh := fun _ => none
  inv := Staked env Fine
  call h pre hx := h.call pre hx
  lock _ _ _ := rfl
  clock _ h := ⟨h.apart, h.drawn, h.bytes, h.fine⟩
  hand f hf h := h.hand f hf

end Steps

end Aks3.Engine
