import Aks3.Lib.LockTable

/-!
# What every step keeps of a table of locks

`Ok` is the invariant of a table: the lock of a name is one and is the one in the
table, and its count is right, so that no lock with clients leaves the table. What a
task knows of a table is which locks it waits for, holds, and has yet to look at the
entry of; every step has a lemma on how it changes that (`Leaves`).

`NoneLeft` says that every entry is somebody's. All steps keep it but one: a task that
is dropped while it waits must leave another that uses the lock (`NoneLeft.cancel`).
-/

set_option autoImplicit false

namespace Aks3.Lib

variable {L T : Type}

namespace LockTable

variable {s s' : LockTable L T} {t u : T} {l l' : L} {m m' : Mode} {id new : Nat}

/-- The lock of a name is one, it is the one in the table, and it is right. -/
structure Ok (s : LockTable L T) : Prop where
  entry : ∀ l id, s.entry l = some id → ∃ o, s.obj id = some o ∧ o.name = l
  obj : ∀ id o, s.obj id = some o → s.entry o.name = some id
  lock : ∀ id o, s.obj id = some o → o.Ok
  pruning : s.pruning.Nodup
  /-- There is memory for another. -/
  room : ∃ n, ∀ id, n ≤ id → s.obj id = none

theorem ok_empty : (empty L T).Ok where
  entry := by simp [empty]
  obj := by simp [empty]
  lock := by simp [empty]
  pruning := .nil
  room := ⟨0, by simp [empty]⟩

theorem room_update {f : Nat → Option (LockObj L T)} (h : ∃ n, ∀ id, n ≤ id → f id = none)
    (id : Nat) (x : Option (LockObj L T)) :
    ∃ n, ∀ id', n ≤ id' → Function.update f id x id' = none := by
  obtain ⟨n, hn⟩ := h
  refine ⟨max n (id + 1), fun id' hid => ?_⟩
  rw [Function.update_of_ne (by omega)]
  exact hn id' (by omega)

/-! ### What tasks know of a table -/

/-- A task refers to the lock of a name and does not hold it yet. -/
def Waits (s : LockTable L T) (t : T) (l : L) : Prop :=
  ∃ id o, s.obj id = some o ∧ o.name = l ∧ t ∈ o.waiting

def Holds (s : LockTable L T) (t : T) (l : L) (m : Mode) : Prop :=
  ∃ id o, s.obj id = some o ∧ o.name = l ∧ (t, m) ∈ o.held

def Prunes (s : LockTable L T) (t : T) (l : L) : Prop := (t, l) ∈ s.pruning

/-- The lock of a name. -/
def lockOf (s : LockTable L T) (l : L) : Option (LockObj L T) := (s.entry l).bind s.obj

theorem Ok.exists_iff (h : s.Ok) (P : LockObj L T → Prop) :
    (∃ id o, s.obj id = some o ∧ o.name = l ∧ P o) ↔ ∃ o, s.lockOf l = some o ∧ P o := by
  constructor
  · rintro ⟨id, o, ho, rfl, hP⟩
    refine ⟨o, ?_, hP⟩
    rw [lockOf, h.obj id o ho, Option.bind_some, ho]
  · rintro ⟨o, ho, hP⟩
    obtain ⟨id, hid, hobj⟩ := Option.bind_eq_some_iff.mp ho
    obtain ⟨o', ho', hname⟩ := h.entry l id hid
    rw [hobj] at ho'
    cases ho'
    exact ⟨id, o, hobj, hname, hP⟩

theorem Ok.waits_iff (h : s.Ok) : s.Waits t l ↔ ∃ o, s.lockOf l = some o ∧ t ∈ o.waiting :=
  h.exists_iff fun o => t ∈ o.waiting

theorem Ok.holds_iff (h : s.Ok) : s.Holds t l m ↔ ∃ o, s.lockOf l = some o ∧ (t, m) ∈ o.held :=
  h.exists_iff fun o => (t, m) ∈ o.held

theorem Ok.lockOf_eq (h : s.Ok) {o : LockObj L T} (ho : s.obj id = some o) :
    s.lockOf o.name = some o := by
  rw [lockOf, h.obj id o ho, Option.bind_some, ho]

/-! ### Steps on one lock -/

theorem mem_of_perm_cons {α : Type} {a x : α} {k k' : List α} (hnd : k.Nodup)
    (hp : k.Perm (a :: k')) : x ∈ k' ↔ x ∈ k ∧ x ≠ a := by
  have hna := (List.nodup_cons.mp (hp.nodup_iff.mp hnd)).1
  rw [hp.mem_iff, List.mem_cons]
  refine ⟨fun hx => ⟨.inr hx, ?_⟩, fun hx => hx.1.resolve_left hx.2⟩
  rintro rfl
  exact hna hx

theorem onObj_eq {f : LockObj L T → Option (LockObj L T)} (h : s.onObj id f = some s') :
    ∃ o o', s.obj id = some o ∧ f o = some o' ∧ s' = s.put id o' := by
  obtain ⟨o', hf, rfl⟩ := Option.map_eq_some_iff.mp h
  obtain ⟨o, ho, hf⟩ := Option.bind_eq_some_iff.mp hf
  exact ⟨o, o', ho, hf, rfl⟩

section Put

variable {o o' : LockObj L T}

theorem obj_put (hok : o'.Ok) : (s.put id o').obj = Function.update s.obj id (some o') := by
  rw [put, if_neg (by rw [hok.strong]; omega)]

theorem Ok.put (h : s.Ok) (ho : s.obj id = some o) (hn : o'.name = o.name) (hok : o'.Ok) :
    (s.put id o').Ok where
  entry := by
    intro l' id' he
    obtain ⟨o₁, ho₁, hname⟩ := h.entry l' id' he
    rw [obj_put hok]
    by_cases hid : id' = id
    · subst hid
      rw [ho] at ho₁
      cases ho₁
      exact ⟨o', Function.update_self .., hn.trans hname⟩
    · exact ⟨o₁, (Function.update_of_ne hid ..).trans ho₁, hname⟩
  obj := by
    intro id' o₁ ho₁
    rw [obj_put hok] at ho₁
    by_cases hid : id' = id
    · subst hid
      rw [Function.update_self] at ho₁
      cases ho₁
      rw [hn]
      exact h.obj id' o ho
    · rw [Function.update_of_ne hid] at ho₁
      exact h.obj id' o₁ ho₁
  lock := by
    intro id' o₁ ho₁
    rw [obj_put hok] at ho₁
    by_cases hid : id' = id
    · subst hid
      rw [Function.update_self] at ho₁
      cases ho₁
      exact hok
    · rw [Function.update_of_ne hid] at ho₁
      exact h.lock id' o₁ ho₁
  pruning := h.pruning
  room := by
    rw [obj_put hok]
    exact room_update h.room id _

theorem Ok.lockOf_put [DecidableEq L] (h : s.Ok) (ho : s.obj id = some o) (hok : o'.Ok) (l : L) :
    (s.put id o').lockOf l = if l = o.name then some o' else s.lockOf l := by
  rw [lockOf, obj_put hok]
  change (s.entry l).bind _ = _
  split
  · rename_i hl
    rw [hl, h.obj id o ho, Option.bind_some, Function.update_self]
  · rename_i hl
    rw [lockOf]
    cases he : s.entry l with
    | none => rfl
    | some id' =>
        have hid : id' ≠ id := by
          rintro rfl
          obtain ⟨o₁, ho₁, hname⟩ := h.entry l id' he
          rw [ho] at ho₁
          cases ho₁
          exact hl hname.symm
        simp only [Option.bind_some, Function.update_of_ne hid]

/-- What a step on one lock changes of a property of the lock of a name. -/
theorem Ok.exists_put [DecidableEq L] (h : s.Ok) (ho : s.obj id = some o) (hok : o'.Ok)
    (P : LockObj L T → Prop) (l : L) :
    (∃ o₁, (s.put id o').lockOf l = some o₁ ∧ P o₁) ↔
      if l = o.name then P o' else ∃ o₁, s.lockOf l = some o₁ ∧ P o₁ := by
  rw [h.lockOf_put ho hok]
  split
  · simp
  · rfl

end Put

section Steps

/-- What tasks know after a step: who waits, who holds, who prunes. -/
structure Leaves (s' : LockTable L T) (waits : T → L → Prop) (holds : T → L → Mode → Prop)
    (prunes : T → L → Prop) : Prop where
  ok : s'.Ok
  waits : ∀ u l, s'.Waits u l ↔ waits u l
  holds : ∀ u l m, s'.Holds u l m ↔ holds u l m
  prunes : ∀ u l, s'.Prunes u l ↔ prunes u l

theorem Ok.waits_name (h : s.Ok) {o : LockObj L T} (ho : s.obj id = some o) :
    s.Waits u o.name ↔ u ∈ o.waiting := by
  rw [h.waits_iff, h.lockOf_eq ho]
  simp

theorem Ok.holds_name (h : s.Ok) {o : LockObj L T} (ho : s.obj id = some o) :
    s.Holds u o.name m ↔ (u, m) ∈ o.held := by
  rw [h.holds_iff, h.lockOf_eq ho]
  simp

theorem Ok.lock_refer (h : s.Ok) {o : LockObj L T} (ho : s.obj id = some o)
    (hf : ¬ s.Waits t o.name ∧ ∀ m, ¬ s.Holds t o.name m) : (o.refer t).Ok := by
  have hok := h.lock id o ho
  have hclients : (o.refer t).clients = t :: o.clients := rfl
  refine ⟨?_, ?_, hok.compat⟩
  · rw [hclients, List.length_cons, ← hok.strong]
    rfl
  · rw [hclients, List.nodup_cons]
    refine ⟨fun hmem => ?_, hok.nodup⟩
    rcases List.mem_append.mp hmem with hw | hh
    · exact hf.1 ((h.waits_name ho).mpr hw)
    · obtain ⟨x, hx, rfl⟩ := List.mem_map.mp hh
      exact hf.2 x.2 ((h.holds_name ho).mpr hx)

theorem Ok.entry_ne (h : s.Ok) (hnew : s.obj new = none) (l : L) : s.entry l ≠ some new := by
  intro hl
  obtain ⟨o, ho, -⟩ := h.entry l new hl
  rw [hnew] at ho
  cases ho

variable [DecidableEq L]

/-- A step on one lock, by what it does to that lock. -/
theorem Ok.leaves_put (h : s.Ok) {o o' : LockObj L T} (ho : s.obj id = some o)
    (hn : o'.name = o.name) (hok : o'.Ok) {waits : T → Prop} {holds : T → Mode → Prop}
    (hw : ∀ u, u ∈ o'.waiting ↔ waits u) (hh : ∀ u m, (u, m) ∈ o'.held ↔ holds u m) :
    Leaves (s.put id o') (fun u l => if l = o.name then waits u else s.Waits u l)
      (fun u l m => if l = o.name then holds u m else s.Holds u l m) s.Prunes where
  ok := h.put ho hn hok
  waits u l := by
    rw [(h.put ho hn hok).waits_iff, h.exists_put ho hok, h.waits_iff, hw]
  holds u l m := by
    rw [(h.put ho hn hok).holds_iff, h.exists_put ho hok, h.holds_iff, hh]
  prunes u l := Iff.rfl

/-- A step that changes nothing a task knows. -/
theorem Ok.leaves_same (h : s.Ok) {o o' : LockObj L T} (ho : s.obj id = some o)
    (hn : o'.name = o.name) (hok : o'.Ok) (hw : o.waiting.Perm o'.waiting) (hh : o'.held = o.held) :
    Leaves (s.put id o') s.Waits s.Holds s.Prunes := by
  have hput := h.leaves_put ho hn hok (fun u => hw.mem_iff.symm) fun u m => by rw [hh]
  refine ⟨hput.ok, fun u l => (hput.waits u l).trans ?_, fun u l m => (hput.holds u l m).trans ?_,
    hput.prunes⟩
  · split
    · rename_i hl
      rw [hl, h.waits_name ho]
    · rfl
  · split
    · rename_i hl
      rw [hl, h.holds_name ho]
    · rfl

theorem Ok.leaves_refer (h : s.Ok) {o : LockObj L T} (ho : s.obj id = some o)
    (hf : ¬ s.Waits t o.name ∧ ∀ m, ¬ s.Holds t o.name m) :
    Leaves (s.put id (o.refer t)) (fun u l => s.Waits u l ∨ u = t ∧ l = o.name) s.Holds
      s.Prunes := by
  have hn : (o.refer t).name = o.name := rfl
  have hput := h.leaves_put ho hn (h.lock_refer ho hf) (fun u => List.mem_cons) fun u m => Iff.rfl
  refine ⟨hput.ok, fun u l => (hput.waits u l).trans ?_,
    fun u l m => (hput.holds u l m).trans ?_, hput.prunes⟩
  · split
    · rename_i hl
      rw [hl, h.waits_name ho, eq_self, and_true]
      exact or_comm
    · rename_i hl
      simp [hl]
  · split
    · rename_i hl
      rw [hl, h.holds_name ho]
      rfl
    · rfl

theorem entry_insert {o : LockObj L T} :
    (s.insert l new o).entry = Function.update s.entry l (some new) := rfl

theorem obj_insert {o : LockObj L T} :
    (s.insert l new o).obj = Function.update s.obj new (some o) := rfl

theorem Ok.insert {o : LockObj L T} (h : s.Ok) (hl : s.entry l = none) (hnew : s.obj new = none)
    (hn : o.name = l) (hok : o.Ok) : (s.insert l new o).Ok where
  entry l' id hid := by
    by_cases hl' : l' = l
    · subst hl'
      rw [entry_insert, Function.update_self] at hid
      cases hid
      exact ⟨o, Function.update_self .., hn⟩
    · rw [entry_insert, Function.update_of_ne hl'] at hid
      obtain ⟨o', ho', hn'⟩ := h.entry l' id hid
      have hne : id ≠ new := fun he => h.entry_ne hnew l' (he ▸ hid)
      exact ⟨o', (Function.update_of_ne hne ..).trans ho', hn'⟩
  obj id o' ho' := by
    by_cases hid : id = new
    · subst hid
      rw [obj_insert, Function.update_self] at ho'
      cases ho'
      rw [hn]
      exact Function.update_self ..
    · rw [obj_insert, Function.update_of_ne hid] at ho'
      have he := h.obj id o' ho'
      have hne : o'.name ≠ l := fun hx => by rw [hx, hl] at he; cases he
      exact (Function.update_of_ne hne ..).trans he
  lock id o' ho' := by
    by_cases hid : id = new
    · subst hid
      rw [obj_insert, Function.update_self] at ho'
      cases ho'
      exact hok
    · rw [obj_insert, Function.update_of_ne hid] at ho'
      exact h.lock id o' ho'
  pruning := h.pruning
  room := room_update h.room new _

theorem Ok.lockOf_insert {o : LockObj L T} (h : s.Ok) (hnew : s.obj new = none) (l' : L) :
    (s.insert l new o).lockOf l' = if l' = l then some o else s.lockOf l' := by
  simp only [lockOf, LockTable.insert]
  by_cases hl : l' = l
  · rw [hl, Function.update_self, Option.bind_some, Function.update_self, if_pos rfl]
  · rw [Function.update_of_ne hl, if_neg hl]
    cases hid : s.entry l' with
    | none => rfl
    | some id =>
        have hne : id ≠ new := fun he => h.entry_ne hnew l' (he ▸ hid)
        simp only [Option.bind_some, Function.update_of_ne hne]

theorem Ok.leaves_insert (h : s.Ok) (hl : s.entry l = none) (hnew : s.obj new = none) :
    Leaves (s.insert l new (.first l t)) (fun u l' => s.Waits u l' ∨ u = t ∧ l' = l) s.Holds
      s.Prunes := by
  have hfirst : (LockObj.first l t).Ok := ⟨rfl, List.nodup_singleton t, .inl (Nat.zero_le 1)⟩
  have hok := h.insert hl hnew rfl hfirst
  have hnone : s.lockOf l = none := by rw [lockOf, hl, Option.bind_none]
  refine ⟨hok, fun u l' => ?_, fun u l' m => ?_, fun u l' => Iff.rfl⟩
  · rw [hok.waits_iff, h.waits_iff, h.lockOf_insert hnew]
    split
    · rename_i hl
      rw [hl, hnone]
      simp [LockObj.waiting, LockObj.first]
    · rename_i hl
      simp [hl]
  · rw [hok.holds_iff, h.holds_iff, h.lockOf_insert hnew]
    split
    · rename_i hl
      rw [hl, hnone]
      simp [LockObj.first]
    · rfl

/-- A reference taken by a task that has none. -/
theorem Ok.refer (h : s.Ok) (hs : s.refer t l new = some s')
    (hf : ¬ s.Waits t l ∧ ∀ m, ¬ s.Holds t l m) :
    Leaves s' (fun u l' => s.Waits u l' ∨ u = t ∧ l' = l) s.Holds s.Prunes := by
  rw [LockTable.refer] at hs
  split at hs
  · rename_i id he
    obtain ⟨o, o', ho, ho', rfl⟩ := onObj_eq hs
    cases ho'
    obtain ⟨o₁, ho₁, rfl⟩ := h.entry l id he
    rw [ho] at ho₁
    cases ho₁
    exact h.leaves_refer ho hf
  · rename_i he
    split at hs
    · rename_i hnew
      cases hs
      exact h.leaves_insert he hnew
    · cases hs

theorem entry_remove : (s.remove l id).entry = Function.update s.entry l none := rfl

theorem obj_remove : (s.remove l id).obj = Function.update s.obj id none := rfl

theorem Ok.remove (h : s.Ok) (hl : s.entry l = some id) : (s.remove l id).Ok where
  entry l' id' hid := by
    by_cases hl' : l' = l
    · subst hl'
      rw [entry_remove, Function.update_self] at hid
      cases hid
    · rw [entry_remove, Function.update_of_ne hl'] at hid
      obtain ⟨o', ho', hn'⟩ := h.entry l' id' hid
      have hne : id' ≠ id := by
        rintro rfl
        obtain ⟨o, ho, hn⟩ := h.entry l id' hl
        rw [ho] at ho'
        cases ho'
        exact hl' (hn'.symm.trans hn)
      exact ⟨o', (Function.update_of_ne hne ..).trans ho', hn'⟩
  obj id' o' ho' := by
    by_cases hid : id' = id
    · subst hid
      rw [obj_remove, Function.update_self] at ho'
      cases ho'
    · rw [obj_remove, Function.update_of_ne hid] at ho'
      have he := h.obj id' o' ho'
      have hne : o'.name ≠ l := by
        intro hx
        rw [hx, hl] at he
        cases he
        exact hid rfl
      exact (Function.update_of_ne hne ..).trans he
  lock id' o' ho' := by
    by_cases hid : id' = id
    · subst hid
      rw [obj_remove, Function.update_self] at ho'
      cases ho'
    · rw [obj_remove, Function.update_of_ne hid] at ho'
      exact h.lock id' o' ho'
  pruning := h.pruning
  room := room_update h.room id _

theorem Ok.lockOf_remove (h : s.Ok) (hl : s.entry l = some id) (l' : L) :
    (s.remove l id).lockOf l' = if l' = l then none else s.lockOf l' := by
  rw [lockOf, entry_remove, obj_remove]
  by_cases hl' : l' = l
  · rw [hl', Function.update_self, Option.bind_none, if_pos rfl]
  · rw [Function.update_of_ne hl', if_neg hl', lockOf]
    cases hid : s.entry l' with
    | none => rfl
    | some id' =>
        obtain ⟨o, ho, hn⟩ := h.entry l id hl
        obtain ⟨o', ho', hn'⟩ := h.entry l' id' hid
        have hne : id' ≠ id := by
          rintro rfl
          rw [ho] at ho'
          cases ho'
          exact hl' (hn'.symm.trans hn)
        simp only [Option.bind_some, Function.update_of_ne hne]

/-- Without clients, a lock is nobody's. -/
theorem Ok.leaves_remove (h : s.Ok) (hl : s.entry l = some id) {o : LockObj L T}
    (ho : s.obj id = some o) (hs : o.strong = 1) :
    Leaves (s.remove l id) s.Waits s.Holds s.Prunes := by
  have hok := h.remove hl
  have hnone := (h.lock id o ho).no_clients hs
  have hlock : s.lockOf l = some o := by rw [lockOf, hl, Option.bind_some, ho]
  rw [LockObj.clients, List.append_eq_nil_iff, List.map_eq_nil_iff] at hnone
  refine ⟨hok, fun u l' => ?_, fun u l' m => ?_, fun u l' => Iff.rfl⟩
  · rw [hok.waits_iff, h.waits_iff, h.lockOf_remove hl]
    split
    · rename_i hl'
      rw [hl', hlock]
      simp [hnone.1]
    · rfl
  · rw [hok.holds_iff, h.holds_iff, h.lockOf_remove hl]
    split
    · rename_i hl'
      rw [hl', hlock]
      simp [hnone.2]
    · rfl

variable [DecidableEq T]

theorem Ok.enqueue (h : s.Ok) (hs : s.onObj id (LockObj.enqueue t m) = some s') :
    Leaves s' s.Waits s.Holds s.Prunes := by
  obtain ⟨o, o', ho, hf, rfl⟩ := onObj_eq hs
  obtain ⟨hn, -, hw, hh, -⟩ := LockObj.enqueue_spec hf
  exact h.leaves_same ho hn ((h.lock id o ho).enqueue hf) hw hh

theorem Ok.grant (h : s.Ok) (hs : s.onObj id LockObj.grant = some s') :
    Leaves s' s.Waits s.Holds s.Prunes := by
  obtain ⟨o, o', ho, hf, rfl⟩ := onObj_eq hs
  obtain ⟨hn, -, hw, hh, -⟩ := LockObj.grant_spec hf
  exact h.leaves_same ho hn ((h.lock id o ho).grant hf) hw hh

theorem Ok.claim (h : s.Ok) (hs : s.onObj id (LockObj.claim t m) = some s') :
    ∃ o, s.obj id = some o ∧ Leaves s'
      (fun u l => s.Waits u l ∧ ¬ (u = t ∧ l = o.name))
      (fun u l m' => s.Holds u l m' ∨ u = t ∧ l = o.name ∧ m' = m) s.Prunes := by
  obtain ⟨o, o', ho, hf, rfl⟩ := onObj_eq hs
  obtain ⟨hn, -, hw, hh, -⟩ := LockObj.claim_spec hf
  have hnd := (List.nodup_append.mp (h.lock id o ho).nodup).1
  have hput := h.leaves_put ho hn ((h.lock id o ho).claim hf) (fun u => mem_of_perm_cons hnd hw)
    fun u m' => by rw [hh, List.mem_cons, Prod.mk.injEq]
  refine ⟨o, ho, hput.ok, fun u l => (hput.waits u l).trans ?_,
    fun u l m' => (hput.holds u l m').trans ?_, hput.prunes⟩
  · split
    · rename_i hl
      rw [hl, h.waits_name ho]
      simp
    · rename_i hl
      simp [hl]
  · split
    · rename_i hl
      rw [hl, h.holds_name ho]
      tauto
    · rename_i hl
      simp [hl]

theorem Ok.cancel (h : s.Ok) (hs : s.onObj id (LockObj.cancel t) = some s') :
    ∃ o, s.obj id = some o ∧
      Leaves s' (fun u l => s.Waits u l ∧ ¬ (u = t ∧ l = o.name)) s.Holds s.Prunes := by
  obtain ⟨o, o', ho, hf, rfl⟩ := onObj_eq hs
  obtain ⟨hn, -, hw, hh, -⟩ := LockObj.cancel_spec hf
  have hnd := (List.nodup_append.mp (h.lock id o ho).nodup).1
  have hput := h.leaves_put ho hn ((h.lock id o ho).cancel hf) (fun u => mem_of_perm_cons hnd hw)
    fun u m => by rw [hh]
  refine ⟨o, ho, hput.ok, fun u l => (hput.waits u l).trans ?_,
    fun u l m => (hput.holds u l m).trans ?_, hput.prunes⟩
  · split
    · rename_i hl
      rw [hl, h.waits_name ho]
      simp
    · rename_i hl
      simp [hl]
  · split
    · rename_i hl
      rw [hl, h.holds_name ho]
    · rfl

theorem Ok.release (h : s.Ok) (hs : s.release t m id = some s')
    (hp : ∀ o, s.obj id = some o → ¬ s.Prunes t o.name) :
    ∃ o, s.obj id = some o ∧ Leaves s' s.Waits
      (fun u l m' => s.Holds u l m' ∧ ¬ (u = t ∧ l = o.name ∧ m' = m))
      fun u l => s.Prunes u l ∨ u = t ∧ l = o.name := by
  rw [LockTable.release] at hs
  split at hs
  · cases hs
  rename_i o ho
  obtain ⟨s₁, hs₁, rfl⟩ := Option.map_eq_some_iff.mp hs
  obtain ⟨o₁, o', ho₁, hf, rfl⟩ := onObj_eq hs₁
  rw [ho] at ho₁
  cases ho₁
  obtain ⟨hn, -, hw, hh, -⟩ := LockObj.release_spec hf
  have hnd : o.held.Nodup :=
    List.Nodup.of_map _ (List.nodup_append.mp (h.lock id o ho).nodup).2.1
  have hput := h.leaves_put ho hn ((h.lock id o ho).release hf) (fun u => by rw [hw])
    fun u m' => mem_of_perm_cons hnd hh
  refine ⟨o, ho, ⟨⟨hput.ok.entry, hput.ok.obj, hput.ok.lock, ?_, hput.ok.room⟩,
    fun u l => ?_, fun u l m' => ?_,
    fun u l => ?_⟩⟩
  · exact List.nodup_cons.mpr ⟨hp o ho, h.pruning⟩
  · refine (hput.waits u l).trans ?_
    split
    · rename_i hl
      rw [hl, h.waits_name ho]
    · rfl
  · refine (hput.holds u l m').trans ?_
    split
    · rename_i hl
      rw [hl, h.holds_name ho, Ne, Prod.mk.injEq]
      simp
    · rename_i hl
      simp [hl]
  · simp only [Prunes, List.mem_cons, Prod.mk.injEq]
    exact or_comm

theorem Ok.prune (h : s.Ok) (hs : s.prune t l = some s') :
    Leaves s' s.Waits s.Holds fun u l' => s.Prunes u l' ∧ ¬ (u = t ∧ l' = l) := by
  rw [LockTable.prune] at hs
  split at hs
  swap
  · cases hs
  have hprunes : ∀ u l', (u, l') ∈ s.pruning.erase (t, l) ↔
      s.Prunes u l' ∧ ¬ (u = t ∧ l' = l) := by
    intro u l'
    rw [h.pruning.mem_erase_iff, Ne, Prod.mk.injEq, and_comm]
    rfl
  have herase : LockTable.Ok { s with pruning := s.pruning.erase (t, l) } :=
    ⟨h.entry, h.obj, h.lock, h.pruning.erase _, h.room⟩
  have hsame : Leaves { s with pruning := s.pruning.erase (t, l) } s.Waits s.Holds
      fun u l' => s.Prunes u l' ∧ ¬ (u = t ∧ l' = l) :=
    ⟨herase, fun _ _ => Iff.rfl, fun _ _ _ => Iff.rfl, hprunes⟩
  dsimp only at hs
  split at hs
  · cases hs
    exact hsame
  · rename_i id hid
    split at hs
    · cases hs
      exact hsame
    · rename_i o ho
      split at hs
      · rename_i hstrong
        cases hs
        have hrem := herase.leaves_remove hid ho hstrong
        exact ⟨hrem.ok, hrem.waits, hrem.holds, fun u l' => (hrem.prunes u l').trans (hprunes u l')⟩
      · cases hs
        exact hsame

end Steps

/-! ### What holds of every table -/

/-- All references to the lock of a name are to one lock, the one in the table. -/
theorem Ok.one_lock (h : s.Ok) {id' : Nat} {o o' : LockObj L T} (ho : s.obj id = some o)
    (ho' : s.obj id' = some o') (hn : o.name = o'.name) : id = id' ∧ s.entry o.name = some id := by
  have he := h.obj id o ho
  have he' := h.obj id' o' ho'
  rw [← hn, he] at he'
  exact ⟨Option.some.inj he', he⟩

/-- A lock that is held exclusively is held by nobody else. -/
theorem Ok.exclusive (h : s.Ok) (ht : s.Holds t l .exclusive) (hu : s.Holds u l m) :
    u = t ∧ m = .exclusive := by
  rw [h.holds_iff] at ht hu
  obtain ⟨o, ho, hmem⟩ := ht
  obtain ⟨o', ho', hmem'⟩ := hu
  rw [ho] at ho'
  cases ho'
  obtain ⟨id, -, hobj⟩ := Option.bind_eq_some_iff.mp ho
  have hact : ∀ {x}, x ∈ o.held → x ∈ o.active := fun hx => List.mem_append_right _ hx
  rcases (h.lock id o hobj).compat with hlen | hsh
  · have hone : ∀ {x y}, x ∈ o.active → y ∈ o.active → x = y := by
      intro x y hx hy
      obtain ⟨z, hz⟩ := List.length_eq_one_iff.mp
        (le_antisymm hlen (List.length_pos_iff.mpr (List.ne_nil_of_mem hx)))
      rw [hz, List.mem_singleton] at hx hy
      rw [hx, hy]
    exact Prod.mk.inj (hone (hact hmem') (hact hmem))
  · cases hsh _ (hact hmem)

/-- A task that waits for a lock does not hold it. -/
theorem Ok.not_holds_of_waits (h : s.Ok) (hw : s.Waits t l) : ¬ s.Holds t l m := by
  intro hh
  obtain ⟨o, ho, hmem⟩ := h.waits_iff.mp hw
  obtain ⟨o', ho', hmem'⟩ := h.holds_iff.mp hh
  rw [ho] at ho'
  cases ho'
  obtain ⟨id, -, hobj⟩ := Option.bind_eq_some_iff.mp ho
  have hnd := (h.lock id o hobj).nodup
  exact (List.nodup_append.mp hnd).2.2 t hmem t (List.mem_map.mpr ⟨_, hmem', rfl⟩) rfl

/-- A task refers to the lock of a name, or has yet to look at its entry. -/
def Uses (s : LockTable L T) (t : T) (l : L) : Prop :=
  s.Waits t l ∨ (∃ m, s.Holds t l m) ∨ s.Prunes t l

/-- No entry is left over. -/
def NoneLeft (s : LockTable L T) : Prop := ∀ l, s.entry l ≠ none → ∃ t, s.Uses t l

theorem noneLeft_empty : (empty L T).NoneLeft := fun _ h => absurd rfl h

/-- A step that keeps the entries keeps them used, if those who used them do. -/
theorem NoneLeft.of_uses (h : s.NoneLeft) (he : s'.entry = s.entry)
    (hu : ∀ t l, s.Uses t l → ∃ u, s'.Uses u l) : s'.NoneLeft := by
  intro l hl
  rw [he] at hl
  obtain ⟨t, ht⟩ := h l hl
  exact hu t l ht

theorem onObj_entry {f : LockObj L T → Option (LockObj L T)} (h : s.onObj id f = some s') :
    s'.entry = s.entry := by
  obtain ⟨o, o', -, -, rfl⟩ := onObj_eq h
  rfl

/-- A step that changes nothing a task knows, nor the entries. -/
theorem NoneLeft.of_leaves (h : s.NoneLeft) (he : s'.entry = s.entry)
    (hs : Leaves s' s.Waits s.Holds s.Prunes) : s'.NoneLeft := by
  refine h.of_uses he fun t l ht => ⟨t, ?_⟩
  simp only [Uses, hs.waits, hs.holds, hs.prunes]
  exact ht

section NoneLeft

variable [DecidableEq L]

theorem NoneLeft.refer (h : s.Ok) (hn : s.NoneLeft) (hs : s.refer t l new = some s')
    (hf : ¬ s.Waits t l ∧ ∀ m, ¬ s.Holds t l m) : s'.NoneLeft := by
  have hl := h.refer hs hf
  intro l' hl'
  by_cases he : l' = l
  · exact ⟨t, .inl ((hl.waits t l').mpr (.inr ⟨rfl, he⟩))⟩
  · have hentry : s'.entry l' = s.entry l' := by
      rw [LockTable.refer] at hs
      split at hs
      · rw [onObj_entry hs]
      · split at hs
        · cases hs
          exact Function.update_of_ne he ..
        · cases hs
    rw [hentry] at hl'
    obtain ⟨u, hu⟩ := hn l' hl'
    refine ⟨u, ?_⟩
    simp only [Uses, hl.waits, hl.holds, hl.prunes]
    exact hu.imp_left .inl

variable [DecidableEq T]

theorem NoneLeft.claim (h : s.Ok) (hn : s.NoneLeft)
    (hs : s.onObj id (LockObj.claim t m) = some s') : s'.NoneLeft := by
  obtain ⟨o, -, hl⟩ := h.claim hs
  refine hn.of_uses (onObj_entry hs) fun u l' hu => ⟨u, ?_⟩
  simp only [Uses, hl.waits, hl.holds, hl.prunes]
  rcases hu with hw | ⟨m', hm⟩ | hp
  · by_cases he : u = t ∧ l' = o.name
    · exact .inr (.inl ⟨m, .inr ⟨he.1, he.2, rfl⟩⟩)
    · exact .inl ⟨hw, he⟩
  · exact .inr (.inl ⟨m', .inl hm⟩)
  · exact .inr (.inr hp)

theorem NoneLeft.release (h : s.Ok) (hn : s.NoneLeft) (hs : s.release t m id = some s')
    (hp : ∀ o, s.obj id = some o → ¬ s.Prunes t o.name) : s'.NoneLeft := by
  obtain ⟨o, ho, hl⟩ := h.release hs hp
  have hentry : s'.entry = s.entry := by
    rw [LockTable.release, ho] at hs
    obtain ⟨s₁, hs₁, rfl⟩ := Option.map_eq_some_iff.mp hs
    exact (onObj_entry hs₁ :)
  refine hn.of_uses hentry fun u l' hu => ⟨u, ?_⟩
  simp only [Uses, hl.waits, hl.holds, hl.prunes]
  rcases hu with hw | ⟨m', hm⟩ | hp
  · exact .inl hw
  · by_cases he : u = t ∧ l' = o.name ∧ m' = m
    · exact .inr (.inr (.inr ⟨he.1, he.2.1⟩))
    · exact .inr (.inl ⟨m', hm, he⟩)
  · exact .inr (.inr (.inl hp))

/-- A task that gives up its reference must leave another that uses the lock. -/
theorem NoneLeft.cancel (h : s.Ok) (hn : s.NoneLeft)
    (hs : s.onObj id (LockObj.cancel t) = some s')
    (hu : ∀ o, s.obj id = some o → ∃ u ≠ t, s.Uses u o.name) : s'.NoneLeft := by
  obtain ⟨o, ho, hl⟩ := h.cancel hs
  obtain ⟨v, hv, huse⟩ := hu o ho
  refine hn.of_uses (onObj_entry hs) fun u l' hu => ?_
  simp only [Uses, hl.waits, hl.holds, hl.prunes]
  by_cases he : u = t ∧ l' = o.name
  · refine ⟨v, ?_⟩
    rw [he.2]
    exact huse.imp_left fun hw => ⟨hw, fun hx => hv hx.1⟩
  · exact ⟨u, hu.imp_left fun hw => ⟨hw, he⟩⟩

theorem NoneLeft.prune (h : s.Ok) (hn : s.NoneLeft) (hs : s.prune t l = some s') :
    s'.NoneLeft := by
  have hl := h.prune hs
  have hentry : ∀ l', s'.entry l' ≠ none → s.entry l' ≠ none ∧
      (l' = l → ∃ id o, s.entry l = some id ∧ s.obj id = some o ∧ o.strong ≠ 1) := by
    rw [LockTable.prune] at hs
    split at hs
    swap
    · cases hs
    dsimp only at hs
    intro l' hl'
    split at hs
    · rename_i he
      cases hs
      refine ⟨hl', ?_⟩
      rintro rfl
      exact absurd he hl'
    · rename_i id hid
      obtain ⟨o, ho, -⟩ := h.entry l id hid
      rw [ho] at hs
      dsimp only at hs
      split at hs
      · cases hs
        rw [entry_remove] at hl'
        by_cases he : l' = l
        · rw [he, Function.update_self] at hl'
          exact absurd rfl hl'
        · rw [Function.update_of_ne he] at hl'
          exact ⟨hl', fun hx => absurd hx he⟩
      · rename_i hstrong
        cases hs
        exact ⟨hl', fun _ => ⟨id, o, hid, ho, hstrong⟩⟩
  intro l' hl'
  obtain ⟨hne, hmany⟩ := hentry l' hl'
  simp only [Uses, hl.waits, hl.holds, hl.prunes]
  by_cases he : l' = l
  · -- The count is more than the table's own, so somebody has the rest.
    obtain ⟨id, o, hid, ho, hstrong⟩ := hmany he
    obtain ⟨o₁, ho₁, hname⟩ := h.entry l id hid
    rw [ho] at ho₁
    cases ho₁
    subst he
    have hclients : o.clients ≠ [] := by
      intro hnil
      rw [(h.lock id o ho).strong, hnil] at hstrong
      exact hstrong rfl
    obtain ⟨u, hu⟩ := List.exists_mem_of_ne_nil _ hclients
    refine ⟨u, ?_⟩
    rcases List.mem_append.mp hu with hw | hh
    · exact .inl (hname ▸ (h.waits_name ho).mpr hw)
    · obtain ⟨x, hx, rfl⟩ := List.mem_map.mp hh
      exact .inr (.inl ⟨x.2, hname ▸ (h.holds_name ho).mpr hx⟩)
  · obtain ⟨u, hu⟩ := hn l' hne
    exact ⟨u, hu.imp_right fun hu => hu.imp_right fun hp => ⟨hp, fun hx => he hx.2⟩⟩

end NoneLeft

/-! ## Who has asked for what -/

/-- A task has asked for a lock and does not hold it yet. -/
def Asks (s : LockTable L T) (t : T) (m : Mode) : Prop :=
  ∃ id o, s.obj id = some o ∧ (t, m) ∈ o.queue ++ o.granted

theorem Asks.waits (h : s.Asks t m) : ∃ l, s.Waits t l := by
  obtain ⟨id, o, ho, hmem⟩ := h
  refine ⟨o.name, id, o, ho, rfl, ?_⟩
  rw [LockObj.waiting, List.append_assoc, ← List.map_append]
  exact List.mem_append_right _ (List.mem_map.mpr ⟨_, hmem, rfl⟩)

/-- A step on one lock, by what it does to those who ask. -/
theorem Asks.onObj {f : LockObj L T → Option (LockObj L T)} {P : T × Mode → Prop}
    (h : s'.Asks u m) (hs : s.onObj id f = some s')
    (hf : ∀ o o', f o = some o' → ∀ x ∈ o'.queue ++ o'.granted, x ∈ o.queue ++ o.granted ∨ P x) :
    s.Asks u m ∨ P (u, m) := by
  obtain ⟨o, o', ho, hfo, rfl⟩ := onObj_eq hs
  obtain ⟨id', o₁, ho₁, hmem⟩ := h
  simp only [put, Function.update_apply] at ho₁
  split at ho₁
  · split at ho₁
    · cases ho₁
    · cases ho₁
      exact (hf o o' hfo _ hmem).imp_left fun hx => ⟨id, o, ho, hx⟩
  · exact .inl ⟨id', o₁, ho₁, hmem⟩

theorem Asks.onObj_sub {f : LockObj L T → Option (LockObj L T)} (h : s'.Asks u m)
    (hs : s.onObj id f = some s')
    (hf : ∀ o o', f o = some o' → ∀ x ∈ o'.queue ++ o'.granted, x ∈ o.queue ++ o.granted) :
    s.Asks u m :=
  (h.onObj (P := fun _ => False) hs fun o o' ho x hx => .inl (hf o o' ho x hx)).resolve_right
    not_false

section Asks

variable [DecidableEq T]

theorem Asks.enqueue {m' : Mode} (hs : s.onObj id (LockObj.enqueue t m) = some s')
    (h : s'.Asks u m') : s.Asks u m' ∨ (u, m') = (t, m) := by
  refine h.onObj (P := (· = (t, m))) hs fun o o' ho x hx => ?_
  unfold LockObj.enqueue at ho
  split at ho
  · cases ho
    simp only [List.append_assoc, List.mem_append, List.mem_singleton] at hx ⊢
    tauto
  · cases ho

theorem Asks.grant (hs : s.onObj id LockObj.grant = some s') (h : s'.Asks u m) : s.Asks u m := by
  refine h.onObj_sub hs fun o o' ho x hx => ?_
  unfold LockObj.grant at ho
  split at ho
  · cases ho
  · rename_i hq
    split at ho
    · cases ho
      rw [hq]
      simp only [List.mem_append, List.mem_cons] at hx ⊢
      tauto
    · cases ho

theorem Asks.claim {m' : Mode} (hs : s.onObj id (LockObj.claim t m) = some s') (h : s'.Asks u m') :
    s.Asks u m' := by
  refine h.onObj_sub hs fun o o' ho x hx => ?_
  unfold LockObj.claim at ho
  split at ho
  · cases ho
    exact List.mem_append.mpr ((List.mem_append.mp hx).imp_right List.mem_of_mem_erase)
  · cases ho

theorem Asks.release {m' : Mode} (hs : s.release t m id = some s') (h : s'.Asks u m') :
    s.Asks u m' := by
  rw [LockTable.release] at hs
  split at hs
  · cases hs
  · obtain ⟨s₁, hs₁, rfl⟩ := Option.map_eq_some_iff.mp hs
    have h₁ : s₁.Asks u m' := h
    refine h₁.onObj_sub hs₁ fun o o' ho x hx => ?_
    unfold LockObj.release at ho
    split at ho
    · cases ho
      exact hx
    · cases ho

theorem Asks.cancel (hs : s.onObj id (LockObj.cancel t) = some s') (h : s'.Asks u m) :
    s.Asks u m := by
  refine h.onObj_sub hs fun o o' ho x hx => ?_
  unfold LockObj.cancel at ho
  split at ho
  · cases ho
    exact hx
  split at ho
  · cases ho
    exact List.mem_append.mpr ((List.mem_append.mp hx).imp_left List.mem_of_mem_erase)
  split at ho
  · cases ho
    exact List.mem_append.mpr ((List.mem_append.mp hx).imp_right List.mem_of_mem_erase)
  · cases ho

variable [DecidableEq L]

theorem Asks.prune (hs : s.prune t l = some s') (h : s'.Asks u m) : s.Asks u m := by
  rw [LockTable.prune] at hs
  split at hs
  swap
  · cases hs
  dsimp only at hs
  split at hs
  · cases hs
    exact h
  · split at hs
    · cases hs
      exact h
    · split at hs
      · cases hs
        obtain ⟨id, o, ho, hmem⟩ := h
        rw [obj_remove] at ho
        simp only [Function.update_apply] at ho
        split at ho
        · cases ho
        · exact ⟨id, o, ho, hmem⟩
      · cases hs
        exact h

end Asks

theorem Asks.refer [DecidableEq L] (hs : s.refer t l new = some s') (h : s'.Asks u m) :
    s.Asks u m := by
  rw [LockTable.refer] at hs
  split at hs
  · refine h.onObj_sub hs fun o o' ho x hx => ?_
    cases ho
    exact hx
  · split at hs
    · cases hs
      obtain ⟨id, o, ho, hmem⟩ := h
      rw [obj_insert] at ho
      by_cases hid : id = new
      · rw [hid, Function.update_self] at ho
        cases ho
        cases hmem
      · rw [Function.update_of_ne hid] at ho
        exact ⟨id, o, ho, hmem⟩
    · cases hs

/-! ## Steps that can be taken -/

theorem onObj_of {f : LockObj L T → Option (LockObj L T)} {o o' : LockObj L T}
    (ho : s.obj id = some o) (hf : f o = some o') : s.onObj id f = some (s.put id o') := by
  rw [onObj, ho, Option.bind_some, hf, Option.map_some]

section Enabled

variable [DecidableEq T]

theorem exists_release (hh : s.Holds t l m) :
    ∃ id o s', s.obj id = some o ∧ o.name = l ∧ s.release t m id = some s' := by
  obtain ⟨id, o, ho, hname, hmem⟩ := hh
  obtain ⟨s₁, hs₁⟩ : ∃ s₁, s.onObj id (LockObj.release t m) = some s₁ :=
    ⟨_, onObj_of ho (if_pos hmem)⟩
  refine ⟨id, o, { s₁ with pruning := (t, o.name) :: s₁.pruning }, ho, hname, ?_⟩
  unfold release
  rw [ho]
  dsimp only
  rw [hs₁, Option.map_some]

theorem exists_cancel (hw : s.Waits t l) :
    ∃ id o s', s.obj id = some o ∧ o.name = l ∧ s.onObj id (LockObj.cancel t) = some s' := by
  obtain ⟨id, o, ho, hname, hmem⟩ := hw
  obtain ⟨o', ho'⟩ := LockObj.exists_cancel hmem
  exact ⟨id, o, _, ho, hname, onObj_of ho ho'⟩

theorem exists_prune [DecidableEq L] (hp : s.Prunes t l) : ∃ s', s.prune t l = some s' := by
  unfold prune
  rw [if_pos (show (t, l) ∈ s.pruning from hp)]
  dsimp only
  split
  · exact ⟨_, rfl⟩
  · split
    · exact ⟨_, rfl⟩
    · split
      · exact ⟨_, rfl⟩
      · exact ⟨_, rfl⟩

end Enabled

theorem Ok.exists_refer [DecidableEq L] (h : s.Ok) (t : T) (l : L) :
    ∃ new s', s.refer t l new = some s' := by
  cases he : s.entry l with
  | some id =>
      obtain ⟨o, ho, -⟩ := h.entry l id he
      refine ⟨0, s.put id (o.refer t), ?_⟩
      rw [LockTable.refer, he]
      exact onObj_of ho rfl
  | none =>
      obtain ⟨n, hn⟩ := h.room
      refine ⟨n, s.insert l n (.first l t), ?_⟩
      rw [LockTable.refer, he]
      exact if_pos (hn n le_rfl)

end LockTable

end Aks3.Lib
