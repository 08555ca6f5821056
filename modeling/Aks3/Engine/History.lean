import Aks3.Engine.Meta

/-!
# What a manifest holds after any history of edits

A manifest is edited by `upsert` and `remove`. An upsert stands in a history
when no later edit is about its version id. After any history from an empty
manifest the versions are the entries of the standing upserts, latest first
(`manifest_history`).
-/

set_option autoImplicit false

namespace Aks3.Engine

namespace VersionManifest

/-- One edit of a manifest. -/
inductive Edit where
  | upsert (e : VersionEntry)
  | remove (versionId : String)
  deriving DecidableEq, Repr

/-- The version id an edit is about. -/
def Edit.versionId : Edit → String
  | .upsert e => e.versionId
  | .remove versionId => versionId

/-- The manifest after one edit. What `remove` returns is dropped. -/
def edit (m : VersionManifest) : Edit → VersionManifest
  | .upsert e => m.upsert e
  | .remove versionId => (m.remove versionId).2

/-- The manifest after a history of edits. -/
def edits (m : VersionManifest) (history : List Edit) : VersionManifest := history.foldl edit m

/-- Edit number `i` is an upsert of `e`, and no later edit is about its version id. -/
def Stands (history : List Edit) (i : Nat) (e : VersionEntry) : Prop :=
  history[i]? = some (.upsert e) ∧
    ∀ j op, i < j → history[j]? = some op → op.versionId ≠ e.versionId

/-- No two entries have one version id. -/
def IdsDistinct (m : VersionManifest) : Prop := (m.versions.map VersionEntry.versionId).Nodup

theorem edits_concat (m : VersionManifest) (history : List Edit) (op : Edit) :
    m.edits (history ++ [op]) = (m.edits history).edit op := by
  simp [edits]

theorem Stands.lt {history : List Edit} {i : Nat} {e : VersionEntry} (h : Stands history i e) :
    i < history.length :=
  (List.getElem?_eq_some_iff.mp h.1).1

/-- An upsert stands after one more edit when it is that edit, or it stood and the edit is
about another version id. -/
theorem stands_concat {history : List Edit} {op : Edit} {i : Nat} {e : VersionEntry} :
    Stands (history ++ [op]) i e ↔
      i = history.length ∧ op = .upsert e ∨ Stands history i e ∧ op.versionId ≠ e.versionId := by
  constructor
  · rintro ⟨here, later⟩
    rcases Nat.lt_trichotomy i history.length with lt | rfl | gt
    · rw [List.getElem?_append_left lt] at here
      refine .inr ⟨⟨here, fun j op' hj h => later j op' hj ?_⟩,
        later history.length op lt (by simp)⟩
      rw [List.getElem?_append_left (List.getElem?_eq_some_iff.mp h).1, h]
    · exact .inl ⟨rfl, by simpa using here⟩
    · rw [List.getElem?_eq_none (by simp; omega)] at here
      cases here
  · rintro (⟨rfl, rfl⟩ | ⟨stands, other⟩)
    · refine ⟨by simp, fun j op' hj h => ?_⟩
      rw [List.getElem?_eq_none (by simp; omega)] at h
      cases h
    · have lt := stands.lt
      refine ⟨by rw [List.getElem?_append_left lt, stands.1], fun j op' hj h => ?_⟩
      rcases Nat.lt_trichotomy j history.length with hlt | rfl | hgt
      · exact stands.2 j op' hj (by rwa [List.getElem?_append_left hlt] at h)
      · have : op' = op := by simpa using h.symm
        rwa [this]
      · rw [List.getElem?_eq_none (by simp; omega)] at h
        cases h

/-- Two standing upserts of one version id are the same edit. -/
theorem Stands.unique {history : List Edit} {i j : Nat} {e e' : VersionEntry}
    (h : Stands history i e) (h' : Stands history j e') (same : e.versionId = e'.versionId) :
    i = j := by
  rcases Nat.lt_trichotomy i j with lt | eq | gt
  · exact absurd same.symm (h.2 j _ lt h'.1)
  · exact eq
  · exact absurd same (h'.2 i _ gt h.1)

/-- Deleting the first entry that matches is deleting all of them when ids are distinct. -/
theorem eraseIdx_of_distinct {versions : List VersionEntry} {versionId : String} {i : Nat}
    (distinct : (versions.map VersionEntry.versionId).Nodup)
    (h : versions.findIdx? (fun v => v.versionId = versionId) = some i) :
    versions.eraseIdx i = versions.filter fun v => v.versionId ≠ versionId := by
  induction versions generalizing i with
  | nil => simp at h
  | cons v versions ih =>
    rw [List.map_cons, List.nodup_cons] at distinct
    by_cases hv : v.versionId = versionId
    · have zero : i = 0 := by simpa [List.findIdx?_cons, hv] using h.symm
      have rest : ∀ u ∈ versions, u.versionId ≠ versionId := fun u hu same =>
        distinct.1 (List.mem_map.mpr ⟨u, hu, same.trans hv.symm⟩)
      have all : (versions.filter fun v => v.versionId ≠ versionId) = versions :=
        List.filter_eq_self.mpr fun u hu => by simpa using rest u hu
      rw [zero, List.eraseIdx_cons_zero, List.filter_cons_of_neg (by simp [hv]), all]
    · obtain ⟨k, hk, rfl⟩ : ∃ k, versions.findIdx? (fun v => v.versionId = versionId) = some k ∧
          k + 1 = i := by simpa [List.findIdx?_cons, hv] using h
      simpa [hv] using ih distinct.2 hk

/-- What `remove` does to a manifest with distinct ids: its versions lose the id's entry. -/
theorem versions_remove {m : VersionManifest} (distinct : m.IdsDistinct) (versionId : String) :
    (m.remove versionId).2 =
      { m with versions := m.versions.filter fun v => v.versionId ≠ versionId } := by
  unfold remove
  split
  · next h =>
    have none : ∀ v ∈ m.versions, v.versionId ≠ versionId := by
      simpa using List.findIdx?_eq_none_iff.mp h
    have all : (m.versions.filter fun v => v.versionId ≠ versionId) = m.versions :=
      List.filter_eq_self.mpr fun v hv => by simpa using none v hv
    rw [all]
  · next i h =>
    dsimp only
    rw [eraseIdx_of_distinct distinct h]

/-- What `remove` returns. -/
theorem remove_eq_some_iff {m : VersionManifest} (distinct : m.IdsDistinct) {versionId : String}
    {e : VersionEntry} :
    (m.remove versionId).1 = some e ↔ e ∈ m.versions ∧ e.versionId = versionId := by
  unfold remove
  split
  · next h =>
    have none : ∀ v ∈ m.versions, v.versionId ≠ versionId := by
      simpa using List.findIdx?_eq_none_iff.mp h
    constructor
    · intro h
      cases h
    · rintro ⟨mem, same⟩
      exact absurd same (none e mem)
  · next i h =>
    obtain ⟨lt, found, -⟩ := List.findIdx?_eq_some_iff_getElem.mp h
    have here : m.versions[i].versionId = versionId := by simpa using found
    dsimp only
    rw [List.getElem?_eq_getElem lt, Option.some.injEq]
    constructor
    · rintro rfl
      exact ⟨List.getElem_mem lt, here⟩
    · rintro ⟨mem, same⟩
      exact List.inj_on_of_nodup_map distinct (List.getElem_mem lt) mem (here.trans same.symm)

/-- What `remove` does when it finds no entry. -/
theorem remove_of_none {m : VersionManifest} {versionId : String}
    (h : (m.remove versionId).1 = none) : (m.remove versionId).2 = m := by
  unfold remove at h ⊢
  split at h
  · rfl
  · next i hi =>
    have lt := (List.findIdx?_eq_some_iff_getElem.mp hi).1
    rw [List.getElem?_eq_getElem lt] at h
    cases h

/-- The versions are the entries of the standing upserts, latest first. -/
structure Records (m : VersionManifest) (history : List Edit)
    (places : List (Nat × VersionEntry)) : Prop where
  recent : places.Pairwise fun p q => q.1 < p.1
  stands : ∀ i e, (i, e) ∈ places ↔ Stands history i e
  versions : m.versions = places.map Prod.snd

namespace Records

variable {m : VersionManifest} {history : List Edit} {places : List (Nat × VersionEntry)}

theorem idsDistinct (h : m.Records history places) : m.IdsDistinct := by
  unfold IdsDistinct
  rw [h.versions, List.map_map, List.Nodup, List.pairwise_map]
  refine h.recent.imp_of_mem fun {p q} hp hq lt same => ?_
  have := ((h.stands p.1 p.2).mp hp).unique ((h.stands q.1 q.2).mp hq) same
  omega

/-- The standing upserts of other version ids, after an edit about `versionId`. -/
theorem filter (h : m.Records history places) (op : Edit) :
    (places.filter fun p => p.2.versionId ≠ op.versionId).Pairwise (fun p q => q.1 < p.1) ∧
      ∀ i e, (i, e) ∈ places.filter (fun p => p.2.versionId ≠ op.versionId) ↔
        Stands history i e ∧ op.versionId ≠ e.versionId :=
  ⟨h.recent.filter _, fun i e => by simp [h.stands, ne_comm]⟩

theorem upsert (h : m.Records history places) (e : VersionEntry) :
    (m.upsert e).Records (history ++ [.upsert e])
      ((history.length, e) :: places.filter fun p => p.2.versionId ≠ e.versionId) where
  recent := by
    refine List.pairwise_cons.mpr ⟨fun p hp => ?_, (h.filter (.upsert e)).1⟩
    exact ((h.stands p.1 p.2).mp (List.mem_of_mem_filter hp)).lt
  stands i e' := by
    rw [List.mem_cons, stands_concat]
    exact or_congr (by simp [eq_comm]) ((h.filter (.upsert e)).2 i e')
  versions := by
    simp only [VersionManifest.upsert, h.versions, List.map_cons, List.filter_map]
    rfl

theorem remove (h : m.Records history places) (versionId : String) :
    (m.remove versionId).2.Records (history ++ [.remove versionId])
      (places.filter fun p => p.2.versionId ≠ versionId) where
  recent := (h.filter (.remove versionId)).1
  stands i e' := by
    rw [stands_concat]
    exact ((h.filter (.remove versionId)).2 i e').trans (by simp)
  versions := by
    simp only [versions_remove h.idsDistinct, h.versions, List.filter_map]
    rfl

theorem edit (h : m.Records history places) (op : Edit) :
    ∃ places', (m.edit op).Records (history ++ [op]) places' := by
  cases op with
  | upsert e => exact ⟨_, h.upsert e⟩
  | remove versionId => exact ⟨_, h.remove versionId⟩

/-- The latest version is the entry of the last standing upsert. -/
theorem latest_eq_some_iff (h : m.Records history places) {e : VersionEntry} :
    m.latest = some e ↔
      ∃ i, Stands history i e ∧ ∀ j e', Stands history j e' → j ≤ i := by
  obtain ⟨recent, stands, versions⟩ := h
  simp only [← stands, latest, versions]
  cases places with
  | nil => simp
  | cons p places =>
    have first := (List.pairwise_cons.mp recent).1
    simp only [List.map_cons, List.head?_cons, Option.some.injEq, List.mem_cons]
    constructor
    · rintro rfl
      refine ⟨p.1, .inl rfl, fun j e' hj => ?_⟩
      rcases hj with rfl | hj
      · exact Nat.le_refl _
      · exact (first _ hj).le
    · rintro ⟨i, rfl | hi, top⟩
      · rfl
      · have := first _ hi
        have := top p.1 p.2 (.inl rfl)
        omega

end Records

/-- A step lemma for each edit carries `Records` through a history. -/
theorem records_edits (format : Nat) (history : List Edit) :
    ∃ places, (edits ⟨format, []⟩ history).Records history places := by
  induction history using List.reverseRecOn with
  | nil => exact ⟨[], List.Pairwise.nil, by simp [Stands], rfl⟩
  | append_singleton history op ih =>
    obtain ⟨places, h⟩ := ih
    rw [edits_concat]
    exact h.edit op

/-- After any history of edits of an empty manifest: the versions are the entries of the
standing upserts, latest first, each version id once; `latest` is the entry of the last
standing upsert; and `remove` returns the id's entry and drops it, or changes nothing. -/
theorem manifest_history (format : Nat) (history : List Edit) :
    (∃ places, (edits ⟨format, []⟩ history).Records history places) ∧
      (edits ⟨format, []⟩ history).IdsDistinct ∧
      (∀ e, (edits ⟨format, []⟩ history).latest = some e ↔
        ∃ i, Stands history i e ∧ ∀ j e', Stands history j e' → j ≤ i) ∧
      ∀ versionId,
        (∀ e, ((edits ⟨format, []⟩ history).remove versionId).1 = some e ↔
          (∃ i, Stands history i e) ∧ e.versionId = versionId) ∧
        (((edits ⟨format, []⟩ history).remove versionId).1 = none →
          ((edits ⟨format, []⟩ history).remove versionId).2 = edits ⟨format, []⟩ history) ∧
        ((edits ⟨format, []⟩ history).remove versionId).2 =
          { edits ⟨format, []⟩ history with
            versions := (edits ⟨format, []⟩ history).versions.filter
              fun v => v.versionId ≠ versionId } := by
  obtain ⟨places, h⟩ := records_edits format history
  refine ⟨⟨places, h⟩, h.idsDistinct, fun e => h.latest_eq_some_iff, fun versionId => ?_⟩
  refine ⟨fun e => ?_, remove_of_none, versions_remove h.idsDistinct versionId⟩
  rw [remove_eq_some_iff h.idsDistinct, h.versions]
  simp [h.stands]

end VersionManifest

end Aks3.Engine
