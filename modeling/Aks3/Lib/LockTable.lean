import Aks3.Lib.Sys

/-!
# A table of named locks

Tasks share locks through a table from names to reference-counted locks. A task that
wants a lock looks it up or inserts it and takes a reference, queues for it, is granted
it, and holds it from its next step on; giving it back releases the lock together with
the reference, and only then removes the entry from the table if the count says that
the table is its last owner. A task that is dropped before it holds the lock gives up
its reference and leaves the table alone.

The locks themselves are fair reader-writer locks: they are granted in the order of the
queue. A mutex is one that is only asked for exclusively.
-/

set_option autoImplicit false

namespace Aks3.Lib

/-- A lock in memory. -/
structure LockObj (L T : Type) where
  /-- The name it was made for. -/
  name : L
  /-- Its count of references. -/
  strong : Nat
  /-- Tasks that have a reference and have not asked for the lock. -/
  refs : List T
  /-- Tasks that have asked for it, in order. -/
  queue : List (T × Mode)
  /-- Tasks it was given to that do not know it yet. -/
  granted : List (T × Mode)
  held : List (T × Mode)
  deriving DecidableEq, Repr

structure LockTable (L T : Type) where
  entry : L → Option Nat
  /-- The locks in memory, by address. -/
  obj : Nat → Option (LockObj L T)
  /-- Tasks that have released a lock and have yet to look at its entry. -/
  pruning : List (T × L)

variable {L T : Type}

namespace LockObj

def waiting (o : LockObj L T) : List T :=
  o.refs ++ o.queue.map Prod.fst ++ o.granted.map Prod.fst

/-- Every task with a reference. -/
def clients (o : LockObj L T) : List T := o.waiting ++ o.held.map Prod.fst

/-- Those the lock is taken by. -/
def active (o : LockObj L T) : List (T × Mode) := o.granted ++ o.held

/-- Whether the lock can be taken in a mode, whoever queues for it. -/
def Admits (o : LockObj L T) (m : Mode) : Prop :=
  o.active = [] ∨ m = .shared ∧ ∀ x ∈ o.active, x.2 = .shared

instance [DecidableEq T] (o : LockObj L T) (m : Mode) : Decidable (o.Admits m) :=
  inferInstanceAs (Decidable (_ ∨ _))

/-- A lock that its first task has a reference to, beside the table. -/
def first (l : L) (t : T) : LockObj L T := ⟨l, 2, [t], [], [], []⟩

def refer (t : T) (o : LockObj L T) : LockObj L T :=
  { o with strong := o.strong + 1, refs := t :: o.refs }

variable [DecidableEq T]

def enqueue (t : T) (m : Mode) (o : LockObj L T) : Option (LockObj L T) :=
  if t ∈ o.refs then some { o with refs := o.refs.erase t, queue := o.queue ++ [(t, m)] }
  else none

/-- Give the lock to the first in the queue. -/
def grant (o : LockObj L T) : Option (LockObj L T) :=
  match o.queue with
  | [] => none
  | (t, m) :: queue =>
    if o.Admits m then some { o with queue, granted := (t, m) :: o.granted } else none

def claim (t : T) (m : Mode) (o : LockObj L T) : Option (LockObj L T) :=
  if (t, m) ∈ o.granted then
    some { o with granted := o.granted.erase (t, m), held := (t, m) :: o.held }
  else none

def release (t : T) (m : Mode) (o : LockObj L T) : Option (LockObj L T) :=
  if (t, m) ∈ o.held then some { o with held := o.held.erase (t, m), strong := o.strong - 1 }
  else none

/-- A task is dropped before it holds the lock. -/
def cancel (t : T) (o : LockObj L T) : Option (LockObj L T) :=
  if t ∈ o.refs then some { o with refs := o.refs.erase t, strong := o.strong - 1 }
  else
    match o.queue.find? fun x => x.1 = t with
    | some x => some { o with queue := o.queue.erase x, strong := o.strong - 1 }
    | none =>
      match o.granted.find? fun x => x.1 = t with
      | some x => some { o with granted := o.granted.erase x, strong := o.strong - 1 }
      | none => none

end LockObj

namespace LockTable

variable [DecidableEq L] [DecidableEq T]

def empty (L T : Type) : LockTable L T := ⟨fun _ => none, fun _ => none, []⟩

/-- Write a lock back; without references it is freed. -/
def put (s : LockTable L T) (id : Nat) (o : LockObj L T) : LockTable L T :=
  { s with obj := Function.update s.obj id (if o.strong = 0 then none else some o) }

/-- A step on one lock. -/
def onObj (s : LockTable L T) (id : Nat) (f : LockObj L T → Option (LockObj L T)) :
    Option (LockTable L T) :=
  ((s.obj id).bind f).map (s.put id)

def insert (s : LockTable L T) (l : L) (new : Nat) (o : LockObj L T) : LockTable L T :=
  { s with
    entry := Function.update s.entry l (some new), obj := Function.update s.obj new (some o) }

def refer (s : LockTable L T) (t : T) (l : L) (new : Nat) : Option (LockTable L T) :=
  match s.entry l with
  | some id => s.onObj id fun o => some (o.refer t)
  | none => if s.obj new = none then some (s.insert l new (.first l t)) else none

def release (s : LockTable L T) (t : T) (m : Mode) (id : Nat) : Option (LockTable L T) :=
  match s.obj id with
  | none => none
  | some o =>
    (s.onObj id (LockObj.release t m)).map fun s => { s with pruning := (t, o.name) :: s.pruning }

def remove (s : LockTable L T) (l : L) (id : Nat) : LockTable L T :=
  { s with entry := Function.update s.entry l none, obj := Function.update s.obj id none }

/-- Remove the entry of a name if the table is the last owner of its lock. -/
def prune (s : LockTable L T) (t : T) (l : L) : Option (LockTable L T) :=
  if (t, l) ∈ s.pruning then
    let s := { s with pruning := s.pruning.erase (t, l) }
    match s.entry l with
    | none => some s
    | some id =>
      match s.obj id with
      | none => some s
      | some o =>
        if o.strong = 1 then some (s.remove l id) else some s
  else none

end LockTable

/-! ## One lock -/

namespace LockObj

variable {o o' : LockObj L T} {t : T} {m : Mode}

/-- The count is right, no task has two references, and the lock is taken by one task or
only shared. -/
structure Ok (o : LockObj L T) : Prop where
  strong : o.strong = o.clients.length + 1
  nodup : o.clients.Nodup
  compat : o.active.length ≤ 1 ∨ ∀ x ∈ o.active, x.2 = .shared

/-- Every step on a lock that keeps its clients keeps it right. -/
theorem Ok.of_perm (h : o.Ok) (hs : o'.strong = o.strong) (hc : o.clients.Perm o'.clients)
    (hcompat : o'.active.length ≤ 1 ∨ ∀ x ∈ o'.active, x.2 = .shared) : o'.Ok :=
  ⟨by rw [hs, h.strong, hc.length_eq], hc.nodup_iff.mp h.nodup, hcompat⟩

/-- So does a step by which one of them leaves. -/
theorem Ok.of_leave (h : o.Ok) (hs : o'.strong = o.strong - 1)
    (hc : o.clients.Perm (t :: o'.clients)) {l : List (T × Mode)}
    (ha : o.active.Perm (l ++ o'.active)) : o'.Ok := by
  refine ⟨?_, (List.nodup_cons.mp (hc.nodup_iff.mp h.nodup)).2, ?_⟩
  · rw [hs, h.strong, hc.length_eq, List.length_cons, Nat.add_sub_cancel]
  · refine h.compat.imp (fun hlen => ?_) fun hsh x hx => ?_
    · rw [ha.length_eq, List.length_append] at hlen
      omega
    · exact hsh x (ha.mem_iff.mpr (List.mem_append_right l hx))

theorem Ok.no_clients (h : o.Ok) (hs : o.strong = 1) : o.clients = [] := by
  rw [h.strong] at hs
  exact List.length_eq_zero_iff.mp (by omega)

variable [DecidableEq T]

theorem enqueue_spec (h : o.enqueue t m = some o') :
    o'.name = o.name ∧ o'.strong = o.strong ∧ o.waiting.Perm o'.waiting ∧ o'.held = o.held ∧
      o'.active = o.active := by
  unfold enqueue at h
  split at h
  · rename_i hmem
    cases h
    refine ⟨rfl, rfl, ?_, rfl, rfl⟩
    simp only [waiting, List.map_append, List.map_cons, List.map_nil, List.append_assoc]
    refine ((List.perm_cons_erase hmem).append_right _).trans ?_
    exact List.perm_middle.symm.trans ((List.perm_middle.symm.append_left _))
  · cases h

theorem grant_spec (h : o.grant = some o') :
    o'.name = o.name ∧ o'.strong = o.strong ∧ o.waiting.Perm o'.waiting ∧ o'.held = o.held ∧
      ∃ t m, o.Admits m ∧ o'.active = (t, m) :: o.active := by
  unfold grant at h
  split at h
  · cases h
  · rename_i t m queue hq
    split at h
    · rename_i hadm
      cases h
      refine ⟨rfl, rfl, ?_, rfl, t, m, hadm, rfl⟩
      simp only [waiting, hq, List.map_cons, List.append_assoc, List.cons_append]
      exact List.perm_middle.symm.append_left _
    · cases h

theorem claim_spec (h : o.claim t m = some o') :
    o'.name = o.name ∧ o'.strong = o.strong ∧ o.waiting.Perm (t :: o'.waiting) ∧
      o'.held = (t, m) :: o.held ∧ o.active.Perm o'.active := by
  unfold claim at h
  split at h
  · rename_i hmem
    cases h
    have hp := List.perm_cons_erase hmem
    refine ⟨rfl, rfl, ?_, rfl, ?_⟩
    · simp only [waiting]
      exact ((hp.map Prod.fst).append_left _).trans List.perm_middle
    · simp only [active]
      exact (hp.append_right _).trans List.perm_middle.symm
  · cases h

theorem release_spec (h : o.release t m = some o') :
    o'.name = o.name ∧ o'.strong = o.strong - 1 ∧ o'.waiting = o.waiting ∧
      o.held.Perm ((t, m) :: o'.held) ∧ o.active.Perm ((t, m) :: o'.active) := by
  unfold release at h
  split at h
  · rename_i hmem
    cases h
    have hp := List.perm_cons_erase hmem
    refine ⟨rfl, rfl, rfl, hp, ?_⟩
    simp only [active]
    exact (hp.append_left _).trans List.perm_middle
  · cases h

theorem cancel_spec (h : o.cancel t = some o') :
    o'.name = o.name ∧ o'.strong = o.strong - 1 ∧ o.waiting.Perm (t :: o'.waiting) ∧
      o'.held = o.held ∧ ∃ l, o.active.Perm (l ++ o'.active) := by
  unfold cancel at h
  split at h
  · rename_i hmem
    cases h
    refine ⟨rfl, rfl, ?_, rfl, [], .refl _⟩
    simp only [waiting, List.append_assoc]
    exact (List.perm_cons_erase hmem).append_right _
  split at h
  · rename_i x hx
    cases h
    obtain rfl : x.1 = t := by simpa using List.find?_some hx
    have hp := (List.perm_cons_erase (List.mem_of_find?_eq_some hx)).map Prod.fst
    refine ⟨rfl, rfl, ?_, rfl, [], .refl _⟩
    simp only [waiting]
    refine ((hp.append_left _).append_right _).trans ?_
    simp
  split at h
  · rename_i x hx
    cases h
    obtain rfl : x.1 = t := by simpa using List.find?_some hx
    have hp := List.perm_cons_erase (List.mem_of_find?_eq_some hx)
    refine ⟨rfl, rfl, ?_, rfl, [x], ?_⟩
    · simp only [waiting]
      exact ((hp.map Prod.fst).append_left _).trans List.perm_middle
    · exact hp.append_right _
  · cases h

theorem exists_cancel (h : t ∈ o.waiting) : ∃ o', o.cancel t = some o' := by
  unfold cancel
  split
  · exact ⟨_, rfl⟩
  rename_i hrefs
  split
  · exact ⟨_, rfl⟩
  rename_i hqueue
  split
  · exact ⟨_, rfl⟩
  rename_i hgranted
  rw [List.find?_eq_none] at hqueue hgranted
  simp only [waiting, List.mem_append, List.mem_map] at h
  rcases h with (h | ⟨x, hx, hxt⟩) | ⟨x, hx, hxt⟩
  · exact absurd h hrefs
  · exact absurd (decide_eq_true hxt) (hqueue x hx)
  · exact absurd (decide_eq_true hxt) (hgranted x hx)

theorem Ok.enqueue (h : o.Ok) (he : o.enqueue t m = some o') : o'.Ok := by
  obtain ⟨-, hs, hw, hh, ha⟩ := enqueue_spec he
  refine h.of_perm hs ?_ (by rw [ha]; exact h.compat)
  rw [clients, clients, hh]
  exact hw.append_right _

theorem Ok.grant (h : o.Ok) (hg : o.grant = some o') : o'.Ok := by
  obtain ⟨-, hs, hw, hh, t, m, hadm, ha⟩ := grant_spec hg
  refine h.of_perm hs ?_ ?_
  · rw [clients, clients, hh]
    exact hw.append_right _
  · rw [ha]
    rcases hadm with hnil | ⟨rfl, hall⟩
    · exact .inl (by simp [hnil])
    · exact .inr (by simpa using hall)

theorem Ok.claim (h : o.Ok) (hc : o.claim t m = some o') : o'.Ok := by
  obtain ⟨-, hs, hw, hh, ha⟩ := claim_spec hc
  refine h.of_perm hs ?_ ?_
  · rw [clients, clients, hh, List.map_cons]
    exact (hw.append_right _).trans List.perm_middle.symm
  · refine h.compat.imp (fun hlen => ha.length_eq ▸ hlen) fun hsh x hx => ?_
    exact hsh x (ha.mem_iff.mpr hx)

theorem Ok.release (h : o.Ok) (hr : o.release t m = some o') : o'.Ok := by
  obtain ⟨-, hs, hw, hh, ha⟩ := release_spec hr
  refine h.of_leave (t := t) (l := [(t, m)]) hs ?_ ha
  rw [clients, clients, hw]
  exact ((hh.map Prod.fst).append_left _).trans List.perm_middle

theorem Ok.cancel (h : o.Ok) (hc : o.cancel t = some o') : o'.Ok := by
  obtain ⟨-, hs, hw, hh, l, ha⟩ := cancel_spec hc
  refine h.of_leave (t := t) hs ?_ ha
  rw [clients, clients, hh]
  exact hw.append_right _

end LockObj

end Aks3.Lib
