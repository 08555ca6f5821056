import Aks3.Engine.Refine

/-!
# Paging through a listing

A client follows the continuation token from page to page until one is not
truncated. With nothing written meanwhile, the pages are the consecutive runs of
the reference listing that the budgets ask for (`follow_exact`).
-/

set_option autoImplicit false

namespace Aks3.Engine

open Lib

/-! ## Pages of an ascending list -/

/-- The items a page reports, in byte order. -/
def ListResult.items (r : ListResult) : List String :=
  (r.objects.map ObjectInfo.key ++ r.commonPrefixes).insertionSort strLe

/-- What a listing reports for a key. -/
def infoAt (C : Crates) (t : FileTree OsName) (b k : String) : ObjectInfo :=
  match liveAt C t b k with
  | some e => objectInfo k e
  | none => ⟨k, 0, "", "", 0, .empty, none⟩

/-- How many items the first `i` pages were asked for. -/
def offset (budget : Nat → Nat) (i : Nat) : Nat := ((List.range i).map budget).sum

theorem reference_ascending {live : List String} (h : live.Pairwise fun a b => utf8 a < utf8 b)
    (pfx : String) (delimiter : Option String) :
    (reference live pfx delimiter).Pairwise fun a b => utf8 a < utf8 b := by
  refine dedup_ascending (List.pairwise_map.mpr ?_)
  refine (h.filter _).imp_of_mem fun ha hb hab => ?_
  have hpa := (List.mem_filter.mp ha).2
  have hpb := (List.mem_filter.mp hb).2
  exact itemOf_mono delimiter (of_decide_eq_true hpa) (of_decide_eq_true hpb) hab.le

/-- A page reports exactly the items it was made of. -/
theorem items_pageOf {chunk : List String} (h : chunk.Pairwise fun a b => utf8 a < utf8 b)
    {info : String → ObjectInfo} (hinfo : ∀ k, (info k).key = k) (pfx : String)
    (delimiter : Option String) (more : Bool) :
    (pageOf info pfx delimiter chunk more).items = chunk := by
  have hkeys : (pageOf info pfx delimiter chunk more).objects.map ObjectInfo.key =
      chunk.filter fun i => foldOf pfx delimiter i = none := by
    simp [pageOf, Function.comp_def, hinfo]
  have hperm : ((pageOf info pfx delimiter chunk more).objects.map ObjectInfo.key ++
      (pageOf info pfx delimiter chunk more).commonPrefixes).Perm chunk := by
    rw [hkeys, pageOf]
    have := List.filter_append_perm (fun i => decide (foldOf pfx delimiter i = none)) chunk
    simpa using this
  refine eq_of_ascending (ascending_insertionSort id ?_) h fun x => ?_
  · rw [List.map_id]
    exact hperm.nodup_iff.mpr (nodup_of_ascending h)
  · rw [ListResult.items, List.mem_insertionSort, hperm.mem_iff]

/-- What is past the last of the first `n` items is what comes after them. -/
theorem beyond_last {rest : List String} (h : rest.Pairwise fun a b => utf8 a < utf8 b) {n : Nat}
    {last : String} (hl : (rest.take n).getLast? = some last) :
    beyond (some last) rest = rest.drop n := by
  obtain ⟨front, hfront⟩ := List.getLast?_eq_some_iff.mp hl
  have hsplit := List.take_append_drop n rest
  rw [hfront] at hsplit
  rw [← hsplit] at h
  obtain ⟨hfirst, -, hcross⟩ := List.pairwise_append.mp h
  obtain ⟨-, -, hfl⟩ := List.pairwise_append.mp hfirst
  conv_lhs => rw [← hsplit]
  rw [beyond, List.filter_append]
  have hnone : (front ++ [last]).filter (fun i => (some last).all fun s => ¬ strLe i s) = [] := by
    refine List.filter_eq_nil_iff.mpr fun x hx => ?_
    have hle : strLe x last := by
      rcases List.mem_append.mp hx with hx | hx
      · exact (hfl x hx last (List.mem_singleton_self _)).le
      · rw [List.mem_singleton.mp hx, strLe]
    simp [hle]
  have hall : (rest.drop n).filter (fun i => (some last).all fun s => ¬ strLe i s) =
      rest.drop n := by
    refine List.filter_eq_self.mpr fun x hx => ?_
    have hlt := hcross last (List.mem_append_right _ (List.mem_singleton_self _)) x hx
    have hle : ¬ strLe x last := not_le.mpr hlt
    simp [hle]
  rw [hnone, hall, List.nil_append]

/-- A token that a page has reported is the bound of the next request. -/
theorem startBound_token {p : ListParams} {last : String}
    (h : (startBound p).all fun s => ¬ strLe last s) (n : Nat) :
    startBound { p with maxKeys := n, continuationToken := some last } = some last := by
  cases ha : p.startAfter with
  | none => simp [startBound]
  | some a =>
      have hla : ¬ strLe last a := by
        intro hle
        unfold startBound at h
        rw [ha] at h
        cases ht : p.continuationToken with
        | none => simp [ht, hle] at h
        | some t =>
            simp only [ht] at h
            split at h
            · simp [hle] at h
            · rename_i hta
              have htr : strLe last t := le_trans hle (not_le.mp hta).le
              simp [htr] at h
      simp [startBound, hla]

theorem beyond_beyond {items : List String} {bound : Option String} {last : String}
    (h : bound.all fun s => ¬ strLe last s) :
    beyond (some last) (beyond bound items) = beyond (some last) items := by
  rw [beyond, beyond, beyond, List.filter_filter]
  refine List.filter_congr fun x _ => ?_
  cases bound with
  | none => simp
  | some s =>
      simp only [Option.all_some, decide_not, Bool.not_eq_true', decide_eq_false_iff_not] at h ⊢
      by_cases hx : strLe x last
      · simp [hx]
      · have hxs : ¬ strLe x s := fun hle => hx (le_trans hle (not_le.mp h).le)
        simp [hx, hxs]

/-! ## A client that follows the tokens -/

/-- Ask for page after page, each from the token of the one before, until one is
not truncated. The `i`th page is asked for with `budget i`; `none` says that a
request failed, or that `fuel` pages were not enough. -/
def follow (env : Env OsName) (C : Crates) (b : String) :
    Nat → (Nat → Nat) → ListParams → World OsName → Option (List ListResult) × World OsName
  | 0, _, _, w => (none, w)
  | fuel + 1, budget, p, w =>
    match runAlone env (serve C (.listObjectsV2 b { p with maxKeys := budget 0 })) w with
    | (.ok (.page r), w') =>
      if r.isTruncated then
        let next := follow env C b fuel (fun i => budget (i + 1))
          { p with continuationToken := r.nextContinuationToken } w'
        (next.1.map (r :: ·), next.2)
      else (some [r], w')
    | (_, w') => (none, w')

/-- The pages of `rest` that a client with these budgets gets. -/
def Pages (info : String → ObjectInfo) (pfx : String) (delimiter : Option String) :
    (Nat → Nat) → List String → List ListResult → Prop
  | _, _, [] => False
  | budget, rest, r :: rs =>
    r = pageOf info pfx delimiter (rest.take (budget 0)) (budget 0 < rest.length) ∧
      if budget 0 < rest.length then
        Pages info pfx delimiter (fun i => budget (i + 1)) (rest.drop (budget 0)) rs
      else rs = []

section Pages

variable {info : String → ObjectInfo} {pfx : String} {delimiter : Option String}

theorem Pages.get : ∀ {pages : List ListResult} {budget : Nat → Nat} {rest : List String},
    Pages info pfx delimiter budget rest pages → ∀ {i : Nat} {r : ListResult}, pages[i]? = some r →
      r = pageOf info pfx delimiter ((rest.drop (offset budget i)).take (budget i))
          (offset budget (i + 1) < rest.length) ∧
        (offset budget (i + 1) < rest.length ↔ i + 1 < pages.length)
  | r :: rs, budget, rest, h, 0, _, hr => by
      obtain ⟨rfl, hrest⟩ := h
      obtain rfl := Option.some.inj hr
      have hoff : offset budget (0 + 1) = budget 0 := by simp [offset]
      rw [hoff]
      refine ⟨rfl, ?_⟩
      by_cases hmore : budget 0 < rest.length
      · rw [if_pos hmore] at hrest
        cases rs with
        | nil => exact hrest.elim
        | cons r' rs => simp [hmore]
      · rw [if_neg hmore] at hrest
        simp [hmore, hrest]
  | r :: rs, budget, rest, h, i + 1, x, hr => by
      obtain ⟨-, hrest⟩ := h
      rw [List.getElem?_cons_succ] at hr
      by_cases hmore : budget 0 < rest.length
      · rw [if_pos hmore] at hrest
        obtain ⟨hx, hiff⟩ := hrest.get hr
        have hoff : ∀ j, offset budget (j + 1) = budget 0 + offset (fun i => budget (i + 1)) j := by
          intro j
          simp [offset, List.range_succ_eq_map, Function.comp_def]
        have hlt : ∀ j, offset budget (j + 1) < rest.length ↔
            offset (fun i => budget (i + 1)) j < (rest.drop (budget 0)).length := by
          intro j
          rw [hoff, List.length_drop]
          omega
        rw [List.drop_drop, ← hoff, ← decide_eq_decide.mpr (hlt (i + 1))] at hx
        refine ⟨hx, (hlt (i + 1)).trans (hiff.trans ?_)⟩
        rw [List.length_cons]
        omega
      · rw [if_neg hmore] at hrest
        rw [hrest] at hr
        cases hr

theorem Pages.flatMap_items (hinfo : ∀ k, (info k).key = k) :
    ∀ {pages : List ListResult} {budget : Nat → Nat} {rest : List String},
      rest.Pairwise (fun a b => utf8 a < utf8 b) → Pages info pfx delimiter budget rest pages →
      pages.flatMap ListResult.items = rest
  | r :: rs, budget, rest, hasc, h => by
      obtain ⟨rfl, hrest⟩ := h
      rw [List.flatMap_cons, items_pageOf (hasc.sublist (List.take_sublist _ _)) hinfo]
      by_cases hmore : budget 0 < rest.length
      · rw [if_pos hmore] at hrest
        rw [hrest.flatMap_items hinfo (hasc.sublist (List.drop_sublist _ _)),
          List.take_append_drop]
      · rw [if_neg hmore] at hrest
        rw [hrest, List.flatMap_nil, List.append_nil, List.take_of_length_le (by omega)]

end Pages

variable {env : Env OsName} {C : Crates} {w : World OsName} {b : String}

theorem key_infoAt (C : Crates) (t : FileTree OsName) (b k : String) :
    (infoAt C t b k).key = k := by
  unfold infoAt
  cases liveAt C t b k <;> rfl

/-- Following the tokens from any bound goes through what is past it. -/
theorem follow_run (hv : isValidBucketName b = true) (hf : Fit env.fits (Place.objects b).path)
    {t : FileTree OsName} (hs : Shaped env.fits t) (hr : Legible C t b)
    (hd : t.IsDir (bucketDir b)) : ∀ (fuel : Nat) (budget : Nat → Nat) (p : ListParams)
      (w : World OsName), w.tree = t → (∀ i, 1 ≤ budget i) →
      (beyond (startBound p) (reference (liveKeys C t b) (p.pfx.getD "") (delimiterOf p))).length <
        fuel →
      ∃ pages w', follow env C b fuel budget p w = (some pages, w') ∧ w.Ticked w' ∧
        Pages (infoAt C t b) (p.pfx.getD "") (delimiterOf p) budget
          (beyond (startBound p) (reference (liveKeys C t b) (p.pfx.getD "") (delimiterOf p))) pages
  | 0, _, _, _, _, _, hfuel => absurd hfuel (Nat.not_lt_zero _)
  | fuel + 1, budget, p, w, hw, hb, hfuel => by
      have hinfo : ∀ k e, liveAt C w.tree b k = some e → infoAt C t b k = objectInfo k e := by
        intro k e he
        rw [infoAt, ← hw, he]
      obtain ⟨w₁, hrun, ht⟩ := listObjectsV2_run (w := w) (hw ▸ hs) (hw ▸ hr) (fun _ => hf) _ hinfo
        { p with maxKeys := budget 0 }
      have hw₁ : w₁.tree = t := by rw [World.tree, ht.fs, ← hw]
      have hpos := hb 0
      rw [hw, inBucket, if_pos hv, if_pos hd, page, if_neg (by simp only; omega)] at hrun
      change _ = (Except.ok (Answer.page (pageOf _ (p.pfx.getD "") (delimiterOf p)
        ((beyond (startBound p) (reference _ (p.pfx.getD "") (delimiterOf p))).take _)
        (_ < (beyond (startBound p) (reference _ (p.pfx.getD "") (delimiterOf p))).length))), w₁)
        at hrun
      have hasc := reference_ascending (liveKeys_ascending C t b) (p.pfx.getD "") (delimiterOf p)
      have ih : ∀ last, _ := fun last => follow_run hv hf hs hr hd fuel (fun i => budget (i + 1))
        { p with continuationToken := some last } w₁ hw₁ fun i => hb (i + 1)
      change ∀ last, (beyond (startBound { p with continuationToken := some last })
        (reference (liveKeys C t b) (p.pfx.getD "") (delimiterOf p))).length < fuel →
        ∃ pages w', _ ∧
          w₁.Ticked w' ∧ Pages (infoAt C t b) (p.pfx.getD "") (delimiterOf p) _
            (beyond _ (reference (liveKeys C t b) (p.pfx.getD "") (delimiterOf p))) pages at ih
      generalize reference (liveKeys C t b) (p.pfx.getD "") (delimiterOf p) = items at *
      generalize hrest : beyond (startBound p) items = rest at *
      have hrasc : rest.Pairwise fun a b => utf8 a < utf8 b := hrest ▸ hasc.filter _
      rw [follow, hrun]
      by_cases hmore : budget 0 < rest.length
      · -- the last item of a full page is past the bound, and is the next bound
        have hne : rest.take (budget 0) ≠ [] := by
          intro h
          have := congrArg List.length h
          rw [List.length_take, List.length_nil] at this
          omega
        obtain ⟨last, hlast⟩ := Option.ne_none_iff_exists'.mp
          (List.getLast?_eq_none_iff.not.mpr hne)
        have hpast : (startBound p).all fun s => ¬ strLe last s := by
          have hmem : last ∈ rest := List.mem_of_mem_take (List.mem_of_getLast? hlast)
          rw [← hrest] at hmem
          exact (List.mem_filter.mp hmem).2
        have hnext : beyond (startBound { p with continuationToken := some last }) items =
            rest.drop (budget 0) := by
          rw [startBound_token hpast p.maxKeys, ← beyond_beyond hpast, hrest]
          exact beyond_last hrasc hlast
        obtain ⟨pages, w', hfollow, ht', hpages⟩ := ih last (by
          rw [hnext, List.length_drop]
          omega)
        rw [hnext] at hpages
        refine ⟨_ :: pages, w', ?_, ht.trans ht', rfl, ?_⟩
        · simp only [pageOf, hmore, decide_true, if_true, hlast, hfollow, Option.map_some]
        · rw [if_pos hmore]
          exact hpages
      · refine ⟨[_], w₁, ?_, ht, rfl, ?_⟩
        · simp only [pageOf, hmore, decide_false, Bool.false_eq_true, if_false]
        · rw [if_neg hmore]

/-- An item that is not folded is a live key. -/
theorem live_of_item {live : List String} {pfx : String} {delimiter : Option String} {i : String}
    (h : i ∈ reference live pfx delimiter) (hf : foldOf pfx delimiter i = none) : i ∈ live := by
  rw [reference, List.mem_dedup, List.mem_map] at h
  obtain ⟨k, hk, rfl⟩ := h
  obtain ⟨hmem, hp⟩ := List.mem_filter.mp hk
  rw [foldOf_itemOf (of_decide_eq_true hp)] at hf
  rwa [itemOf_of_whole hf]

theorem entryAt_of_live {t : FileTree OsName} {k : String} (h : k ∈ liveKeys C t b) :
    ∃ e, entryAt C t b k = .ok e ∧ infoAt C t b k = objectInfo k e := by
  obtain ⟨e, he⟩ := Option.isSome_iff_exists.mp (mem_liveKeys.mp h)
  refine ⟨e, ?_, by rw [infoAt, he]⟩
  unfold liveAt at he
  cases hx : entryAt C t b k with
  | error x => simp [hx, Except.toOption] at he
  | ok e' => simp_all [Except.toOption]

/-- What a page says that reports the items `chunk`: the keys among them in their order, with
the objects there are at the keys, and the common prefixes. -/
structure ExactPage (C : Crates) (t : FileTree OsName) (b pfx : String) (delimiter : Option String)
    (chunk : List String) (r : ListResult) : Prop where
  items : r.items = chunk
  keys : r.objects.map ObjectInfo.key = chunk.filter fun x => (foldOf pfx delimiter x).isNone
  folded : r.commonPrefixes = chunk.filter fun x => (foldOf pfx delimiter x).isSome
  found : ∀ o ∈ r.objects, ∃ e, entryAt C t b o.key = .ok e ∧ o = objectInfo o.key e

theorem exactPage_pageOf {t : FileTree OsName} {pfx : String} {delimiter : Option String}
    {chunk : List String} (hasc : chunk.Pairwise fun a b => utf8 a < utf8 b)
    (hlive : ∀ x ∈ chunk, x ∈ reference (liveKeys C t b) pfx delimiter) (more : Bool) :
    ExactPage C t b pfx delimiter chunk (pageOf (infoAt C t b) pfx delimiter chunk more) where
  items := items_pageOf hasc (key_infoAt C t b) pfx delimiter more
  keys := by
    simp only [pageOf, List.map_map, Function.comp_def, key_infoAt, List.map_id']
    refine List.filter_congr fun x _ => ?_
    cases foldOf pfx delimiter x <;> rfl
  folded := by
    refine List.filter_congr fun x _ => ?_
    cases foldOf pfx delimiter x <;> rfl
  found := by
    intro o ho
    obtain ⟨k, hk, rfl⟩ := List.mem_map.mp ho
    obtain ⟨hmem, hfold⟩ := List.mem_filter.mp hk
    rw [key_infoAt]
    exact entryAt_of_live (live_of_item (hlive k hmem) (of_decide_eq_true hfold))

/-- The pages that following the tokens comes to, with nothing written meanwhile. -/
structure Followed (C : Crates) (t : FileTree OsName) (b : String) (p : ListParams)
    (budget : Nat → Nat) (items : List String) (pages : List ListResult) : Prop where
  all : pages.flatMap ListResult.items = items
  page : ∀ i r, pages[i]? = some r →
    ExactPage C t b (p.pfx.getD "") (delimiterOf p)
      ((items.drop (offset budget i)).take (budget i)) r
  truncated : ∀ i r, pages[i]? = some r →
    (r.isTruncated = true ↔ offset budget (i + 1) < items.length) ∧
    (r.isTruncated = true ↔ i + 1 < pages.length) ∧
    r.nextContinuationToken = if r.isTruncated then r.items.getLast? else none

/-- Following the tokens ends, at the pages of the reference listing past `start_after`. -/
theorem follow_pages (hs : Shaped env.fits w.tree) (hr : Legible C w.tree b)
    (hv : isValidBucketName b = true) (hd : w.tree.IsDir (bucketDir b))
    (hf : env.fits OBJECTS_DIR = true) {p : ListParams} (hp : p.continuationToken = none)
    {budget : Nat → Nat} (hb : ∀ i, 1 ≤ budget i) {items : List String}
    (hi : items = beyond p.startAfter
      (reference (liveKeys C w.tree b) (p.pfx.getD "") (delimiterOf p))) :
    ∃ pages w', follow env C b (items.length + 1) budget p w = (some pages, w') ∧ w.Ticked w' ∧
      Followed C w.tree b p budget items pages := by
  have hfit : Fit env.fits (Place.objects b).path := by
    obtain ⟨j, hj⟩ := hd
    have hbucket := hs.fit _ (by rw [hj]; exact Option.some_ne_none _)
    exact List.forall_mem_cons.mpr ⟨hf, hbucket⟩
  have hstart : startBound p = p.startAfter := by rw [startBound, hp]
  have hasc := reference_ascending (liveKeys_ascending C w.tree b) (p.pfx.getD "") (delimiterOf p)
  have hiasc : items.Pairwise fun a b => utf8 a < utf8 b := hi ▸ hasc.filter _
  have hfollow := follow_run hv hfit hs hr hd (items.length + 1) budget p w rfl hb
  rw [hstart, ← hi] at hfollow
  obtain ⟨pages, w', hrun, ht, hpages⟩ := hfollow (Nat.lt_succ_self _)
  have hchunk := fun i => hiasc.sublist ((List.take_sublist (budget i) _).trans
    (List.drop_sublist (offset budget i) items))
  refine ⟨pages, w', hrun, ht, hpages.flatMap_items (key_infoAt C w.tree b) hiasc,
    fun i r hr => ?_, fun i r hr => ?_⟩
  · obtain ⟨rfl, -⟩ := hpages.get hr
    refine exactPage_pageOf (hchunk i) (fun x hx => ?_) _
    have hitem := List.mem_of_mem_drop (List.mem_of_mem_take hx)
    rw [hi] at hitem
    exact (List.mem_filter.mp hitem).1
  · obtain ⟨rfl, hiff⟩ := hpages.get hr
    rw [items_pageOf (hchunk i) (key_infoAt C w.tree b)]
    exact ⟨decide_eq_true_iff, decide_eq_true_iff.trans hiff, rfl⟩

/-- **Listing and paging are exact.** With nothing written meanwhile, following the
tokens ends, the pages are consecutive runs of the reference listing past
`start_after`, each as long as its budget allows, and a page is truncated, with its
last item for a token, exactly when items remain. Its keys and its common prefixes are
each in the order of the items. -/
theorem follow_exact (hs : Shaped env.fits w.tree) (hr : Legible C w.tree b)
    (hv : isValidBucketName b = true) (hd : w.tree.IsDir (bucketDir b))
    (hf : env.fits OBJECTS_DIR = true) {p : ListParams} (hp : p.continuationToken = none)
    {budget : Nat → Nat} (hb : ∀ i, 1 ≤ budget i) {items : List String}
    (hi : items = beyond p.startAfter
      (reference (liveKeys C w.tree b) (p.pfx.getD "") (delimiterOf p))) :
    ∃ pages w', follow env C b (items.length + 1) budget p w = (some pages, w') ∧ w.Ticked w' ∧
      pages.flatMap ListResult.items = items ∧
      ∀ i r, pages[i]? = some r →
        r.items = (items.drop (offset budget i)).take (budget i) ∧
        (r.isTruncated = true ↔ offset budget (i + 1) < items.length) ∧
        (r.isTruncated = true ↔ i + 1 < pages.length) ∧
        r.nextContinuationToken = (if r.isTruncated then r.items.getLast? else none) ∧
        r.objects.map ObjectInfo.key =
          (r.items.filter fun x => (foldOf (p.pfx.getD "") (delimiterOf p) x).isNone) ∧
        r.commonPrefixes =
          (r.items.filter fun x => (foldOf (p.pfx.getD "") (delimiterOf p) x).isSome) ∧
        ∀ o ∈ r.objects, ∃ e, entryAt C w.tree b o.key = .ok e ∧ o = objectInfo o.key e := by
  obtain ⟨pages, w', hrun, ht, hpages⟩ := follow_pages hs hr hv hd hf hp hb hi
  refine ⟨pages, w', hrun, ht, hpages.all, fun i r hr => ?_⟩
  obtain ⟨hmore, hlast, htoken⟩ := hpages.truncated i r hr
  have hpage := hpages.page i r hr
  rw [hpage.items] at htoken ⊢
  exact ⟨rfl, hmore, hlast, htoken, hpage.keys, hpage.folded, hpage.found⟩

/-- Three keys, two of them under one prefix, in pages of one item. -/
theorem follow_exact_folded :
    ∃ w : World OsName, Shaped sampleEnv.fits w.tree ∧ Legible sampleCrates w.tree "abc" ∧
      w.tree.IsDir (bucketDir "abc") ∧
      liveKeys sampleCrates w.tree "abc" = ["a/x", "a/y", "b"] ∧
      ∃ pages w', follow sampleEnv sampleCrates "abc" 3 (fun _ => 1)
          ⟨none, some "/", none, none, 1⟩ w = (some pages, w') ∧
        pages.flatMap ListResult.items = ["a/", "b"] := by
  obtain ⟨w, -, hrep⟩ := serveAll_start (C := sampleCrates)
    (fun _ => rfl : ∀ n, sampleEnv.fits n = true) 0
    [(0, .createBucket "abc"), (0, .putObject "abc" "b" [.ok (utf8 "a")] noOpts),
      (0, .putObject "abc" "a/y" [.ok (utf8 "a")] noOpts),
      (0, .putObject "abc" "a/x" [.ok (utf8 "b")] noOpts)]
  generalize hS : (Store.applyAll sampleCrates ∅ _).2 = S at hrep
  have hkeys : (S.lookup "abc").map (fun B => B.objects.keys) = some {"a/x", "a/y", "b"} := by
    rw [← hS]
    decide +kernel
  obtain ⟨B, hB, hBk⟩ := Option.map_eq_some_iff.mp hkeys
  have hlive : liveKeys sampleCrates w.tree "abc" = ["a/x", "a/y", "b"] := by
    refine eq_of_ascending (liveKeys_ascending _ _ _) (by decide) fun k => ?_
    rw [hrep.liveKeys_eq hB, mem_ascending, hBk]
    simp
  have hd : w.tree.IsDir (bucketDir "abc") :=
    (hrep.bucket "abc").mpr (Finmap.mem_of_lookup_eq_some hB)
  have hi : ["a/", "b"] =
      beyond none (reference (liveKeys sampleCrates w.tree "abc") "" (some "/")) := by
    rw [hlive]
    decide +kernel
  obtain ⟨pages, w', hrun, -, hitems, -⟩ := follow_exact (p := ⟨none, some "/", none, none, 1⟩)
    hrep.shaped (hrep.legible "abc") (by decide) hd rfl rfl (fun _ => le_rfl : ∀ _ : Nat, 1 ≤ 1) hi
  exact ⟨w, hrep.shaped, hrep.legible "abc", hd, hlive, pages, w', hrun, hitems⟩

end Aks3.Engine
