import Aks3.Engine.Effects
import Aks3.Engine.Listing

/-!
# Groups of folded keys

`list_objects_v2` walks the sorted keys once and remembers only the last common prefix it reported.
That is enough because folding keeps the order of keys and a group holds every key between two of
its keys (`commonPrefixOf_between`). So the loop never reports a prefix twice, whatever the
manifests it reads say (`listLoop_ascending`).
-/

set_option autoImplicit false

namespace Aks3.Lib.Prog

theorem Returns.mono {S : Sig} {α : Type} {Q Q' : α → Prop} {p : Prog S α} (hp : p.Returns Q)
    (h : ∀ a, Q a → Q' a) : p.Returns Q' := by
  induction p with
  | pure a => exact h a hp
  | op o k ih => exact fun r => ih r (hp r)

end Aks3.Lib.Prog

namespace Aks3.Engine

open Lib

variable {pfx delimiter key key' common : String}

theorem foldOf_some (h : utf8 pfx <+: utf8 key) :
    foldOf pfx (some delimiter) key = commonPrefixOf key (utf8 pfx).length delimiter :=
  (commonPrefixOf_eq h delimiter).symm

/-- What a key is listed as keeps the order of keys. -/
theorem commonPrefixOf_mono (delimiter : String) (h : utf8 pfx <+: utf8 key)
    (h' : utf8 pfx <+: utf8 key')
    (hle : utf8 key ≤ utf8 key') :
    utf8 ((commonPrefixOf key (utf8 pfx).length delimiter).getD key) ≤
      utf8 ((commonPrefixOf key' (utf8 pfx).length delimiter).getD key') := by
  have mono := itemOf_mono (some delimiter) h h' hle
  rwa [itemOf, itemOf, foldOf_some h, foldOf_some h'] at mono

/-- A key that starts with a common prefix folds to it. -/
theorem commonPrefixOf_of_starts (h : utf8 pfx <+: utf8 key)
    (hc : commonPrefixOf key (utf8 pfx).length delimiter = some common)
    (hk : utf8 common <+: utf8 key') :
    commonPrefixOf key' (utf8 pfx).length delimiter = some common := by
  have fold : foldOf pfx (some delimiter) key = some common := (foldOf_some h).trans hc
  have whole : utf8 pfx <+: utf8 common := by
    have lead := prefix_itemOf (some delimiter) h
    rwa [itemOf_of_fold fold] at lead
  have h' : utf8 pfx <+: utf8 key' := whole.trans hk
  have cuts := utf8_foldOf (some delimiter) h
  rw [fold, Option.map_some, Option.map_some, Option.bind_some] at cuts
  have cuts' := utf8_foldOf (some delimiter) h'
  rw [Option.map_some, Option.bind_some, cut_of_isPrefix h.length_le cuts.symm hk] at cuts'
  obtain ⟨c, hfold, hsame⟩ := Option.map_eq_some_iff.mp cuts'
  rw [← foldOf_some h', hfold, utf8_inj.mp hsame]

/-- **A group holds every key between two of its keys.** -/
theorem commonPrefixOf_between {k : String} (h : utf8 pfx <+: utf8 key)
    (h' : utf8 pfx <+: utf8 key')
    (hk : utf8 pfx <+: utf8 k) (hc : commonPrefixOf key (utf8 pfx).length delimiter = some common)
    (hc' : commonPrefixOf key' (utf8 pfx).length delimiter = some common)
    (low : utf8 key ≤ utf8 k) (high : utf8 k ≤ utf8 key') :
    commonPrefixOf k (utf8 pfx).length delimiter = some common := by
  have fold : foldOf pfx (some delimiter) key = some common := (foldOf_some h).trans hc
  have fold' : foldOf pfx (some delimiter) key' = some common := (foldOf_some h').trans hc'
  have lower := itemOf_mono (some delimiter) h hk low
  have upper := itemOf_mono (some delimiter) hk h' high
  rw [itemOf_of_fold fold] at lower
  rw [itemOf_of_fold fold'] at upper
  have same : itemOf pfx (some delimiter) k = common := utf8_inj.mp (le_antisymm upper lower)
  rw [← foldOf_some hk]
  exact foldOf_of_itemOf_eq h hk fold same

/-! ## The loop -/

/-- The common prefixes reported so far: ascending, each that of a key before all that are left. -/
structure Reported (pfx delimiter : String) (out : ListResult) (keys : List String) : Prop where
  ascending : out.commonPrefixes.Pairwise fun a b => utf8 a < utf8 b
  source : ∀ c ∈ out.commonPrefixes, ∃ key, utf8 pfx <+: utf8 key ∧
    commonPrefixOf key (utf8 pfx).length delimiter = some c ∧ ∀ k ∈ keys, utf8 key ≤ utf8 k

namespace Reported

variable {out : ListResult} {keys : List String}

theorem tail (h : Reported pfx delimiter out (key :: keys)) : Reported pfx delimiter out keys where
  ascending := h.ascending
  source c hc := by
    obtain ⟨k, hp, hk, before⟩ := h.source c hc
    exact ⟨k, hp, hk, fun x hx => before x (List.mem_cons_of_mem key hx)⟩

/-- The prefix of the next key is past all reported ones, unless it is the last of them. -/
theorem push (h : Reported pfx delimiter out (key :: keys)) (hp : utf8 pfx <+: utf8 key)
    (hc : commonPrefixOf key (utf8 pfx).length delimiter = some common)
    (hlast : out.commonPrefixes.getLast? ≠ some common) (hs : ∀ k ∈ keys, utf8 key ≤ utf8 k)
    {out' : ListResult} (hout : out'.commonPrefixes = out.commonPrefixes ++ [common]) :
    Reported pfx delimiter out' keys where
  ascending := by
    rw [hout]
    refine List.pairwise_append.mpr ⟨h.ascending, List.pairwise_singleton _ _, ?_⟩
    intro c hmem x hx
    rw [List.mem_singleton.mp hx]
    have below : ∀ d ∈ out.commonPrefixes, utf8 d ≤ utf8 common := by
      intro d hd
      obtain ⟨k, hpk, hk, before⟩ := h.source d hd
      have mono := commonPrefixOf_mono delimiter hpk hp (before key List.mem_cons_self)
      rwa [hk, hc, Option.getD_some, Option.getD_some] at mono
    refine lt_of_le_of_ne (below c hmem) fun he => hlast ?_
    -- `c` is the prefix itself, so nothing reported after it can differ from it.
    obtain ⟨xs, ys, hxs⟩ := List.append_of_mem hmem
    have order := h.ascending
    rw [hxs] at order ⊢
    rcases List.eq_nil_or_concat ys with rfl | ⟨mid, z, rfl⟩
    · rw [List.getLast?_concat, utf8_inj.mp he]
    · have after := (List.pairwise_cons.mp (List.pairwise_append.mp order).2.1).1 z (by simp)
      have bound := below z (by rw [hxs]; simp)
      rw [← he] at bound
      exact absurd after (not_lt_of_ge bound)
  source c hmem := by
    rw [hout] at hmem
    rcases List.mem_append.mp hmem with hmem | hmem
    · exact h.tail.source c hmem
    · rw [List.mem_singleton.mp hmem]
      exact ⟨key, hp, hc, hs⟩

end Reported

/-- **No common prefix is reported twice**, whatever the manifests say. -/
theorem listLoop_ascending (C : Crates) (dir : Path OsName) (maxKeys : Nat)
    (start : Option String) :
    ∀ {keys : List String} {out : ListResult}, keys.Pairwise (fun a b => utf8 a ≤ utf8 b) →
      Reported pfx delimiter out keys →
      Prog.ReturnsOk (fun r : ListResult => r.commonPrefixes.Pairwise fun a b => utf8 a < utf8 b)
        (listLoop C dir maxKeys pfx (some delimiter) start keys out)
  | [], out, _, h => Prog.returnsOk_pure h.ascending
  | key :: keys, out, hs, h => by
      obtain ⟨hfirst, hrest⟩ := List.pairwise_cons.mp hs
      have skip := listLoop_ascending C dir maxKeys start hrest h.tail
      rw [listLoop]
      split
      · exact skip
      rename_i hp
      rw [not_not] at hp
      dsimp only [Option.bind_some]
      split
      · exact skip
      split
      · exact skip
      rename_i hlast
      refine Prog.ReturnsOk.bind (Q := fun _ => True)
        (Prog.returns_of (fun _ _ _ => trivial) _) fun e _ => ?_
      cases e with
      | none => exact skip
      | some e =>
          dsimp only
          split
          · exact Prog.returnsOk_pure h.ascending
          · cases hc : commonPrefixOf key (utf8 pfx).length delimiter with
            | none =>
                exact listLoop_ascending C dir maxKeys start hrest ⟨h.ascending, h.tail.source⟩
            | some common =>
                rw [hc] at hlast
                have fresh : out.commonPrefixes.getLast? ≠ some common := fun he => hlast ⟨rfl, he⟩
                exact listLoop_ascending C dir maxKeys start hrest (h.push hp hc fresh hfirst rfl)

/-- **Folding is monotone with contiguous groups.** -/
theorem folding_contiguous (pfx delimiter : String) :
    (∀ k₁ k₂ : String, utf8 pfx <+: utf8 k₁ → utf8 pfx <+: utf8 k₂ → utf8 k₁ ≤ utf8 k₂ →
      utf8 ((commonPrefixOf k₁ (utf8 pfx).length delimiter).getD k₁) ≤
        utf8 ((commonPrefixOf k₂ (utf8 pfx).length delimiter).getD k₂)) ∧
    (∀ k c k' : String, utf8 pfx <+: utf8 k →
      commonPrefixOf k (utf8 pfx).length delimiter = some c →
      utf8 c <+: utf8 k' → commonPrefixOf k' (utf8 pfx).length delimiter = some c) ∧
    (∀ k₁ k₂ c u : String, utf8 pfx <+: utf8 k₁ → utf8 pfx <+: utf8 k₂ → utf8 pfx <+: utf8 u →
      commonPrefixOf k₁ (utf8 pfx).length delimiter = some c →
      commonPrefixOf k₂ (utf8 pfx).length delimiter = some c →
      commonPrefixOf u (utf8 pfx).length delimiter = none →
      u ≠ c ∧ ¬ (utf8 k₁ ≤ utf8 u ∧ utf8 u ≤ utf8 k₂)) ∧
    (∀ (xs ys zs : List String) (k₁ k₂ c : String),
      (xs ++ k₁ :: (ys ++ k₂ :: zs)).Pairwise (fun a b => utf8 a ≤ utf8 b) →
      (∀ k ∈ xs ++ k₁ :: (ys ++ k₂ :: zs), utf8 pfx <+: utf8 k) →
      commonPrefixOf k₁ (utf8 pfx).length delimiter = some c →
      commonPrefixOf k₂ (utf8 pfx).length delimiter = some c →
      ∀ k ∈ ys, commonPrefixOf k (utf8 pfx).length delimiter = some c) ∧
    (∀ (C : Crates) (dir : Path OsName) (maxKeys : Nat) (start : Option String)
      (keys : List String),
      keys.Pairwise (fun a b => utf8 a ≤ utf8 b) →
      Prog.ReturnsOk (fun r : ListResult => r.commonPrefixes.Nodup)
        (listLoop C dir maxKeys pfx (some delimiter) start keys .default)) ∧
    (∀ key : String, utf8 pfx <+: utf8 key →
      (fromUtf8 ((utf8 key).drop (utf8 pfx).length)).isSome ∧
      ∀ at_, find (utf8 delimiter) ((utf8 key).drop (utf8 pfx).length) = some at_ →
        (fromUtf8 ((utf8 key).take
          ((utf8 pfx).length + at_ + (utf8 delimiter).length))).isSome) := by
  refine ⟨fun k₁ k₂ h₁ h₂ hle => commonPrefixOf_mono delimiter h₁ h₂ hle,
    fun k c k' h hc hk => commonPrefixOf_of_starts h hc hk, ?_, ?_, ?_, ?_⟩
  · intro k₁ k₂ c u h₁ h₂ hu hc₁ hc₂ hnone
    refine ⟨?_, ?_⟩
    · rintro rfl
      rw [commonPrefixOf_of_starts h₁ hc₁ List.prefix_rfl] at hnone
      cases hnone
    · rintro ⟨low, high⟩
      rw [commonPrefixOf_between h₁ h₂ hu hc₁ hc₂ low high] at hnone
      cases hnone
  · intro xs ys zs k₁ k₂ c hs hp hc₁ hc₂ k hk
    obtain ⟨-, hgroup, -⟩ := List.pairwise_append.mp hs
    obtain ⟨first, hinner⟩ := List.pairwise_cons.mp hgroup
    obtain ⟨-, -, cross⟩ := List.pairwise_append.mp hinner
    exact commonPrefixOf_between (hp k₁ (by simp)) (hp k₂ (by simp)) (hp k (by simp [hk])) hc₁ hc₂
      (first k (by simp [hk])) (cross k hk k₂ List.mem_cons_self)
  · intro C dir maxKeys start keys hs
    have none_ : Reported pfx delimiter .default keys :=
      ⟨List.Pairwise.nil, fun c hc => absurd hc List.not_mem_nil⟩
    have loop := listLoop_ascending C dir maxKeys start hs none_
    exact loop.mono fun r hr a ha => nodup_of_ascending (hr a ha)
  · intro key h
    refine ⟨?_, fun at_ hat => ?_⟩
    · obtain ⟨rest, hrest⟩ := h
      rw [utf8_eq_flatMap pfx, utf8_eq_flatMap key] at hrest
      obtain ⟨more, hmore, hbytes⟩ := chars_prefix hrest
      rw [Option.isSome_iff_exists]
      refine ⟨String.ofList more, fromUtf8_eq_some.mpr ?_⟩
      rw [utf8_ofList, utf8_eq_flatMap key, utf8_eq_flatMap pfx, hmore,
        List.flatMap_append, List.drop_left]
    · obtain ⟨t, ht⟩ := occurrence_valid h hat
      rw [← ht, fromUtf8_utf8]
      rfl

end Aks3.Engine
