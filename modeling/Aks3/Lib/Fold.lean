import Aks3.Lib.Text

/-!
# Folding ordered byte strings at a delimiter

`cut` takes a byte string through the first delimiter it has past a prefix of
given length; `item` is that, or the whole string when there is no delimiter.
A string that begins with what another one was cut to is cut there itself
(`cut_of_isPrefix`), so the strings of one group are neighbours in the order and
`item` is monotone (`item_mono`): a list of items made from an ordered list of
strings is ordered, and its repeats stand together.
-/

set_option autoImplicit false

namespace Aks3.Lib

/-! ## Prefixes in the lexicographic order -/

section Order

variable {α : Type} [LinearOrder α]

theorem le_of_isPrefix {p a : List α} (h : p <+: a) : p ≤ a := by
  obtain ⟨r, rfl⟩ := h
  induction p with
  | nil => exact not_lt.mp (List.not_lt_nil _)
  | cons x p ih => exact List.cons_le_cons x ih

/-- Between a string and its extensions there are only extensions. -/
theorem prefix_of_not_lt_of_lt {p r : List α} :
    ∀ {a : List α}, ¬ a < p → a < p ++ r → p <+: a := by
  induction p with
  | nil => exact fun _ _ => List.nil_prefix
  | cons x p ih =>
      intro a hge hlt
      cases a with
      | nil => exact absurd (List.nil_lt_cons x p) hge
      | cons y a =>
          rw [List.cons_append, List.cons_lt_cons_iff] at hlt
          rw [List.cons_lt_cons_iff] at hge
          rcases hlt with hyx | ⟨rfl, hlt⟩
          · exact absurd (.inl hyx) hge
          · exact List.cons_prefix_cons.mpr ⟨rfl, ih (fun h => hge (.inr ⟨rfl, h⟩)) hlt⟩

theorem lt_prefix_of_lt {p a b : List α} (hb : p <+: b) (ha : ¬ p <+: a) (h : a < b) : a < p := by
  obtain ⟨r, rfl⟩ := hb
  by_contra hge
  exact ha (prefix_of_not_lt_of_lt hge h)

end Order

/-! ## The first occurrence -/

theorem find_unique {pat s : Bytes} {i : Nat} (h : pat <+: s.drop i)
    (first : ∀ j < i, ¬ pat <+: s.drop j) : find pat s = some i := by
  cases hf : find pat s with
  | none =>
      have hnone := find_eq_none hf
      by_cases hi : i ≤ s.length
      · exact absurd h (hnone i hi)
      · rw [List.drop_eq_nil_of_le (by omega)] at h
        obtain rfl := List.prefix_nil.mp h
        exact absurd List.nil_prefix (hnone 0 (Nat.zero_le _))
  | some k =>
      obtain ⟨hk, firstk⟩ := find_occurs hf
      rcases lt_trichotomy i k with hlt | rfl | hlt
      · exact absurd h (firstk i hlt)
      · rfl
      · exact absurd hk (first k hlt)

/-! ## Cutting at the delimiter -/

/-- `k` through the first `d` found past its first `pre` bytes. -/
def cut (pre : Nat) (d k : Bytes) : Option Bytes :=
  (find d (k.drop pre)).map fun i => k.take (pre + i + d.length)

theorem cut_prefix {pre : Nat} {d k p : Bytes} (h : cut pre d k = some p) : p <+: k := by
  obtain ⟨i, -, rfl⟩ := Option.map_eq_some_iff.mp h
  exact List.take_prefix _ _

/-- **What begins with a cut is cut there too.** -/
theorem cut_of_isPrefix {pre : Nat} {d k k' p : Bytes} (hpre : pre ≤ k.length)
    (h : cut pre d k = some p) (hp : p <+: k') : cut pre d k' = some p := by
  obtain ⟨i, hi, rfl⟩ := Option.map_eq_some_iff.mp h
  obtain ⟨occurs, first⟩ := find_occurs hi
  have hlen : pre + i + d.length ≤ k.length := by
    have hle := occurs.length_le
    rw [List.drop_drop, List.length_drop] at hle
    cases d with
    | nil =>
        -- the empty delimiter is found at once
        have hzero : i = 0 := by
          by_contra hne
          exact first 0 (Nat.pos_of_ne_zero hne) List.nil_prefix
        simp only [hzero, List.length_nil]
        omega
    | cons b d =>
        rw [List.length_cons] at hle ⊢
        omega
  obtain ⟨r, rfl⟩ := hp
  -- up to the end of the cut both strings are the same
  have same : ∀ j, pre + j + d.length ≤ pre + i + d.length →
      (d <+: ((k.take (pre + i + d.length) ++ r).drop pre).drop j ↔ d <+: (k.drop pre).drop j) := by
    intro j hj
    have split : k = k.take (pre + i + d.length) ++ k.drop (pre + i + d.length) :=
      (List.take_append_drop _ _).symm
    have htake : (k.take (pre + i + d.length)).length = pre + i + d.length := by
      rw [List.length_take]
      omega
    rw [List.drop_drop, List.drop_drop, List.drop_append_of_le_length (by omega)]
    conv_rhs => rw [split, List.drop_append_of_le_length (by omega)]
    have hd : d.length ≤ ((k.take (pre + i + d.length)).drop (pre + j)).length := by
      rw [List.length_drop]
      omega
    constructor
    · intro hpre
      exact (List.prefix_of_prefix_length_le hpre (List.prefix_append _ _) hd).trans
        (List.prefix_append _ _)
    · intro hpre
      exact (List.prefix_of_prefix_length_le hpre (List.prefix_append _ _) hd).trans
        (List.prefix_append _ _)
  have found : find d ((k.take (pre + i + d.length) ++ r).drop pre) = some i := by
    refine find_unique ((same i le_rfl).mpr occurs) fun j hj hocc => ?_
    exact first j hj ((same j (by omega)).mp hocc)
  rw [cut, found, Option.map_some, List.take_left']
  rw [List.length_take]
  omega

/-- What a string contributes to a folded list: its cut, or itself. -/
def item (pre : Nat) (d : Option Bytes) (k : Bytes) : Bytes := (d.bind fun d => cut pre d k).getD k

theorem item_of_cut {pre : Nat} {d : Option Bytes} {k p : Bytes}
    (h : (d.bind fun d => cut pre d k) = some p) : item pre d k = p := by
  rw [item, h]
  rfl

theorem item_of_whole {pre : Nat} {d : Option Bytes} {k : Bytes}
    (h : (d.bind fun d => cut pre d k) = none) : item pre d k = k := by
  rw [item, h]
  rfl

/-- `cut_of_isPrefix` for a delimiter that may be absent. -/
theorem bind_cut_of_isPrefix {pre : Nat} {d : Option Bytes} {k k' p : Bytes} (hpre : pre ≤ k.length)
    (h : (d.bind fun d => cut pre d k) = some p) (hp : p <+: k') :
    (d.bind fun d => cut pre d k') = some p := by
  cases d with
  | none => cases h
  | some d => exact cut_of_isPrefix hpre h hp

/-- **Folding keeps the order.** -/
theorem item_mono {pre : Nat} {d : Option Bytes} {a b : Bytes} (ha : pre ≤ a.length)
    (hb : pre ≤ b.length) (h : a ≤ b) : item pre d a ≤ item pre d b := by
  rcases h.eq_or_lt with rfl | h
  · exact le_rfl
  cases hca : d.bind fun d => cut pre d a with
  | none =>
      rw [item_of_whole hca]
      cases hcb : d.bind fun d => cut pre d b with
      | none =>
          rw [item_of_whole hcb]
          exact h.le
      | some q =>
          rw [item_of_cut hcb]
          refine (lt_prefix_of_lt (cut_prefix' hcb) (fun hq => ?_) h).le
          rw [bind_cut_of_isPrefix hb hcb hq] at hca
          cases hca
  | some p =>
      rw [item_of_cut hca]
      by_cases hp : p <+: b
      · rw [item_of_cut (bind_cut_of_isPrefix ha hca hp)]
      · have hpb : p < b := (le_of_isPrefix (cut_prefix' hca)).trans_lt h
        cases hcb : d.bind fun d => cut pre d b with
        | none =>
            rw [item_of_whole hcb]
            exact hpb.le
        | some q =>
            rw [item_of_cut hcb]
            refine (lt_prefix_of_lt (cut_prefix' hcb) (fun hq => hp ?_) hpb).le
            -- a cut inside another one's prefix is the same cut
            have hqa : q <+: a := hq.trans (cut_prefix' hca)
            have hsame := bind_cut_of_isPrefix hb hcb hqa
            rw [hca] at hsame
            cases hsame
            exact cut_prefix' hcb
where
  cut_prefix' {pre : Nat} {d : Option Bytes} {k p : Bytes}
      (h : (d.bind fun d => cut pre d k) = some p) : p <+: k := by
    cases d with
    | none => cases h
    | some d => exact cut_prefix h

/-- An item that is a cut is never also a whole string's. -/
theorem cut_of_item_eq {pre : Nat} {d : Option Bytes} {a b p : Bytes} (ha : pre ≤ a.length)
    (h : (d.bind fun d => cut pre d a) = some p) (hb : item pre d b = p) :
    (d.bind fun d => cut pre d b) = some p := by
  cases hcb : d.bind fun d => cut pre d b with
  | some q => rw [← hb, item_of_cut hcb]
  | none =>
      rw [item_of_whole hcb] at hb
      subst hb
      rw [bind_cut_of_isPrefix ha h List.prefix_rfl] at hcb
      cases hcb

/-! ## Ascending lists of texts -/

theorem nodup_of_ascending {l : List String} (h : l.Pairwise fun a b => utf8 a < utf8 b) :
    l.Nodup :=
  h.imp fun hab he => absurd hab (by rw [he]; exact lt_irrefl _)

/-- An ascending list is determined by its members. -/
theorem eq_of_ascending {l l' : List String} (h : l.Pairwise fun a b => utf8 a < utf8 b)
    (h' : l'.Pairwise fun a b => utf8 a < utf8 b) (hm : ∀ x, x ∈ l ↔ x ∈ l') : l = l' := by
  have hperm : l.Perm l' :=
    (List.perm_ext_iff_of_nodup (nodup_of_ascending h) (nodup_of_ascending h')).mpr hm
  exact hperm.eq_of_pairwise (fun a b _ _ hab hba => absurd hab (lt_asymm hba)) h h'

/-- Sorting what has no two elements of one name makes the names ascending. -/
theorem ascending_insertionSort {α : Type} (name : α → String) {l : List α}
    (h : (l.map name).Nodup) : (l.insertionSort fun a b => strLe (name a) (name b)).Pairwise
      fun a b => utf8 (name a) < utf8 (name b) := by
  have : Std.Total fun a b => strLe (name a) (name b) := ⟨fun a b => le_total (utf8 (name a)) _⟩
  have : IsTrans α fun a b => strLe (name a) (name b) := ⟨fun _ _ _ => le_trans⟩
  have hsort := List.pairwise_insertionSort (fun a b => strLe (name a) (name b)) l
  have hnd :=
    ((List.perm_insertionSort (fun a b => strLe (name a) (name b)) l).map name).nodup_iff.mpr h
  exact (hsort.and (List.pairwise_map.mp hnd)).imp fun h => lt_of_le_of_ne h.1
    (utf8_inj.not.mpr h.2)

/-- Without repeats, an ordered list is ascending. -/
theorem dedup_ascending {l : List String} (h : l.Pairwise fun a b => utf8 a ≤ utf8 b) :
    l.dedup.Pairwise fun a b => utf8 a < utf8 b := by
  have hle := h.sublist (List.dedup_sublist l)
  refine (hle.and (List.nodup_dedup l)).imp fun hab => ?_
  exact lt_of_le_of_ne hab.1 fun he => hab.2 (utf8_inj.mp he)

end Aks3.Lib
