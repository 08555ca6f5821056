import Aks3.Engine.FsEngine
import Aks3.Lib.Fold

/-!
# What a listing is

The reference listing of a set of live keys: the keys with the prefix, in byte
order, each cut just after the first delimiter past the prefix, without repeats.
A page is a run of those items past a bound. `listLoop` computes a page from the
sorted keys of the walk in one pass, skipping what is not listed; `pageFold` is
that loop with the manifest reads answered by a function, and
`pageFold_eq_page` says that it is the page of the reference listing.
-/

set_option autoImplicit false

namespace Aks3.Engine

open Lib

/-! ## The reference listing -/

/-- An absent delimiter and an empty one both fold nothing. -/
def delimiterOf (p : ListParams) : Option String := p.delimiter.filter (· ≠ "")

/-- The common prefix a key folds into, if any: the key through the first delimiter
past the prefix. -/
def foldOf (pfx : String) (delimiter : Option String) (key : String) : Option String :=
  delimiter.bind fun d => shortestCut pfx d key

/-- The item of a key: the key cut just after the first delimiter past the prefix,
else the key. -/
def itemOf (pfx : String) (delimiter : Option String) (key : String) : String :=
  (foldOf pfx delimiter key).getD key

/-- Every item the live keys `live` have, in order. -/
def reference (live : List String) (pfx : String) (delimiter : Option String) : List String :=
  ((live.filter fun k => utf8 pfx <+: utf8 k).map (itemOf pfx delimiter)).dedup

/-- The items strictly after a bound. -/
def beyond (bound : Option String) (items : List String) : List String :=
  items.filter fun i => bound.all fun s => ¬ strLe i s

/-- A page that reports the items `chunk`, with or without more to come. -/
def pageOf (info : String → ObjectInfo) (pfx : String) (delimiter : Option String)
    (chunk : List String) (more : Bool) : ListResult where
  objects := (chunk.filter fun i => foldOf pfx delimiter i = none).map info
  commonPrefixes := chunk.filter fun i => foldOf pfx delimiter i ≠ none
  isTruncated := more
  nextContinuationToken := if more then chunk.getLast? else none

/-- The page a request asks for. -/
def page (live : List String) (info : String → ObjectInfo) (p : ListParams) : ListResult :=
  if p.maxKeys = 0 then .default
  else
    let pfx := p.pfx.getD ""
    let rest := beyond (startBound p) (reference live pfx (delimiterOf p))
    pageOf info pfx (delimiterOf p) (rest.take p.maxKeys) (p.maxKeys < rest.length)

/-! ## Items and the order of keys -/

section Items

variable {pfx : String} {delimiter : Option String} {key key' : String}

/-- The engine cuts a key where the reference does. -/
theorem commonPrefixOf_eq (h : utf8 pfx <+: utf8 key) (d : String) :
    commonPrefixOf key (utf8 pfx).length d = shortestCut pfx d key := by
  rw [← find_eq_shortestCut h, commonPrefixOf]
  cases find (utf8 d) ((utf8 key).drop (utf8 pfx).length) <;> rfl

/-- The cut of a key is made at character boundaries, so it is a text. -/
theorem utf8_foldOf (delimiter : Option String) (h : utf8 pfx <+: utf8 key) :
    (foldOf pfx delimiter key).map utf8 =
      (delimiter.map utf8).bind fun d => cut (utf8 pfx).length d (utf8 key) := by
  cases delimiter with
  | none => rfl
  | some d =>
      simp only [foldOf, Option.bind_some, Option.map_some, ← find_eq_shortestCut h, cut]
      cases hf : find (utf8 d) ((utf8 key).drop (utf8 pfx).length) with
      | none => rfl
      | some i =>
          obtain ⟨t, ht⟩ := occurrence_valid h hf
          simp only [Option.bind_some, ← ht, fromUtf8_utf8, Option.map_some]

theorem utf8_itemOf (h : utf8 pfx <+: utf8 key) :
    utf8 (itemOf pfx delimiter key) =
      item (utf8 pfx).length (delimiter.map utf8) (utf8 key) := by
  rw [item, ← utf8_foldOf delimiter h, itemOf]
  cases foldOf pfx delimiter key <;> rfl

theorem itemOf_mono (delimiter : Option String) (h : utf8 pfx <+: utf8 key)
    (h' : utf8 pfx <+: utf8 key') (hle : utf8 key ≤ utf8 key') :
    utf8 (itemOf pfx delimiter key) ≤ utf8 (itemOf pfx delimiter key') := by
  rw [utf8_itemOf h, utf8_itemOf h']
  exact item_mono h.length_le h'.length_le hle

theorem itemOf_of_fold {p : String} (h : foldOf pfx delimiter key = some p) :
    itemOf pfx delimiter key = p := by
  rw [itemOf, h]
  rfl

theorem itemOf_of_whole (h : foldOf pfx delimiter key = none) : itemOf pfx delimiter key = key := by
  rw [itemOf, h]
  rfl

/-- An item that some key folds into is never a key of its own. -/
theorem foldOf_of_itemOf_eq {p : String} (hk : utf8 pfx <+: utf8 key)
    (hk' : utf8 pfx <+: utf8 key') (h : foldOf pfx delimiter key = some p)
    (hi : itemOf pfx delimiter key' = p) : foldOf pfx delimiter key' = some p := by
  have hcut := utf8_foldOf delimiter hk
  rw [h, Option.map_some] at hcut
  have hitem := congrArg utf8 hi
  rw [utf8_itemOf hk'] at hitem
  have hcut' := cut_of_item_eq hk.length_le hcut.symm hitem
  rw [← utf8_foldOf delimiter hk'] at hcut'
  obtain ⟨q, hq, hqp⟩ := Option.map_eq_some_iff.mp hcut'
  rw [hq, utf8_inj.mp hqp]

/-- The prefix is part of every item. -/
theorem prefix_itemOf (delimiter : Option String) (h : utf8 pfx <+: utf8 key) :
    utf8 pfx <+: utf8 (itemOf pfx delimiter key) := by
  cases hf : foldOf pfx delimiter key with
  | none => rwa [itemOf_of_whole hf]
  | some p =>
      have hcut := utf8_foldOf delimiter h
      rw [hf, Option.map_some] at hcut
      cases delimiter with
      | none => cases hcut
      | some d =>
          obtain ⟨i, hi, hp⟩ := Option.map_eq_some_iff.mp hcut.symm
          rw [itemOf_of_fold hf, ← hp]
          refine List.prefix_of_prefix_length_le h (List.take_prefix _ _) ?_
          have := h.length_le
          rw [List.length_take]
          omega

/-- An item folds into itself, or not at all, as the key it came from does. -/
theorem foldOf_itemOf (h : utf8 pfx <+: utf8 key) :
    foldOf pfx delimiter (itemOf pfx delimiter key) = foldOf pfx delimiter key := by
  cases hf : foldOf pfx delimiter key with
  | none => rw [itemOf_of_whole hf, hf]
  | some p =>
      have hi := itemOf_of_fold hf
      have hp := prefix_itemOf delimiter h
      rw [hi] at hp ⊢
      have hcut := utf8_foldOf delimiter h
      rw [hf, Option.map_some] at hcut
      have hself := bind_cut_of_isPrefix h.length_le hcut.symm List.prefix_rfl
      rw [← utf8_foldOf delimiter hp] at hself
      obtain ⟨q, hq, hqp⟩ := Option.map_eq_some_iff.mp hself
      rw [hq, utf8_inj.mp hqp]

end Items

/-! ## The loop over the sorted keys -/

/-- An item the loop reports: the key that opened it and that key's version. -/
structure Emit where
  key : String
  entry : VersionEntry
  folded : Option String

def Emit.item (x : Emit) : String := x.folded.getD x.key

/-- Report one item. -/
def ListResult.push (out : ListResult) (x : Emit) : ListResult :=
  match x.folded with
  | some common =>
    { out with
      nextContinuationToken := some common
      commonPrefixes := out.commonPrefixes ++ [common] }
  | none =>
    { out with
      nextContinuationToken := some x.key
      objects := out.objects ++ [objectInfo x.key x.entry] }

def ListResult.size (out : ListResult) : Nat := out.objects.length + out.commonPrefixes.length

section Loop

variable (entryOf : String → Option VersionEntry) (pfx : String) (delimiter start : Option String)

/-- What the loop reports for `key` when the last common prefix was `last`. -/
def emit (last : Option String) (key : String) : Option Emit :=
  if ¬ utf8 pfx <+: utf8 key then none
  else if start.any fun s => strLe (itemOf pfx delimiter key) s then none
  else if (foldOf pfx delimiter key).isSome ∧ last = foldOf pfx delimiter key then none
  else (entryOf key).map fun e => ⟨key, e, foldOf pfx delimiter key⟩

/-- Everything the loop would report if nothing bounded it. -/
def emits : Option String → List String → List Emit
  | _, [] => []
  | last, key :: keys =>
    match emit entryOf pfx delimiter start last key with
    | none => emits last keys
    | some x => x :: emits (x.folded.or last) keys

/-- `listLoop`, with `entryOf` in place of the manifest reads. -/
def pageFold (maxKeys : Nat) : List String → ListResult → ListResult
  | [], out => out
  | key :: keys, out =>
    match emit entryOf pfx delimiter start out.commonPrefixes.getLast? key with
    | none => pageFold maxKeys keys out
    | some x =>
      if out.size = maxKeys then { out with isTruncated := true }
      else pageFold maxKeys keys (out.push x)

variable {entryOf pfx delimiter start}

theorem emit_eq_some {last : Option String} {key : String} {x : Emit}
    (h : emit entryOf pfx delimiter start last key = some x) :
    utf8 pfx <+: utf8 key ∧ x.key = key ∧ x.folded = foldOf pfx delimiter key ∧
      x.item = itemOf pfx delimiter key ∧ entryOf key = some x.entry ∧
      (start.any fun s => strLe (itemOf pfx delimiter key) s) = false ∧
      ¬ ((foldOf pfx delimiter key).isSome ∧ last = foldOf pfx delimiter key) := by
  unfold emit at h
  split at h
  · cases h
  rename_i hp
  split at h
  · cases h
  rename_i hs
  split at h
  · cases h
  rename_i hl
  obtain ⟨e, he, rfl⟩ := Option.map_eq_some_iff.mp h
  exact ⟨not_not.mp hp, rfl, rfl, rfl, he, Bool.not_eq_true _ |>.mp hs, hl⟩

theorem size_push (out : ListResult) (x : Emit) : (out.push x).size = out.size + 1 := by
  unfold ListResult.push ListResult.size
  split <;> simp only [List.length_append, List.length_singleton] <;> omega

theorem getLast?_push (out : ListResult) (x : Emit) :
    (out.push x).commonPrefixes.getLast? = x.folded.or out.commonPrefixes.getLast? := by
  unfold ListResult.push
  split <;> rename_i h <;> simp [h]

theorem emits_of_none {last : Option String} {key : String} {keys : List String}
    (h : emit entryOf pfx delimiter start last key = none) :
    emits entryOf pfx delimiter start last (key :: keys) =
      emits entryOf pfx delimiter start last keys := by
  rw [emits, h]

theorem emits_of_some {last : Option String} {key : String} {keys : List String} {x : Emit}
    (h : emit entryOf pfx delimiter start last key = some x) :
    emits entryOf pfx delimiter start last (key :: keys) =
      x :: emits entryOf pfx delimiter start (x.folded.or last) keys := by
  rw [emits, h]

/-- Report as many of `es` as the budget allows. -/
def ListResult.report (maxKeys : Nat) (out : ListResult) (es : List Emit) : ListResult :=
  { (es.take (maxKeys - out.size)).foldl ListResult.push out with
    isTruncated := maxKeys - out.size < es.length }

/-- The loop reports what it would, up to its budget. -/
theorem pageFold_eq (maxKeys : Nat) (keys : List String) : ∀ {out : ListResult},
    out.size ≤ maxKeys → out.isTruncated = false →
      pageFold entryOf pfx delimiter start maxKeys keys out =
        out.report maxKeys
          (emits entryOf pfx delimiter start out.commonPrefixes.getLast? keys) := by
  induction keys with
  | nil =>
      intro out hsize htr
      cases out
      simp_all [pageFold, emits, ListResult.report]
  | cons key keys ih =>
      intro out hsize htr
      rw [pageFold]
      cases he : emit entryOf pfx delimiter start out.commonPrefixes.getLast? key with
      | none =>
          rw [emits_of_none he]
          exact ih hsize htr
      | some x =>
          rw [emits_of_some he]
          simp only
          by_cases hfull : out.size = maxKeys
          · simp [hfull, ListResult.report]
          · rw [if_neg hfull]
            have hroom : maxKeys - out.size = (maxKeys - (out.push x).size) + 1 := by
              rw [size_push]
              omega
            have htr' : (out.push x).isTruncated = false := by
              unfold ListResult.push
              split <;> exact htr
            have hsize' : (out.push x).size ≤ maxKeys := by
              rw [size_push]
              omega
            rw [ih hsize' htr', getLast?_push]
            simp only [ListResult.report, hroom, List.take_succ_cons, List.foldl_cons,
              List.length_cons, Nat.add_lt_add_iff_right]

/-! ### The items reported are the reference listing -/

theorem emits_mem {x : Emit} : ∀ {keys : List String} {last : Option String},
    x ∈ emits entryOf pfx delimiter start last keys →
      ∃ last', x.key ∈ keys ∧ emit entryOf pfx delimiter start last' x.key = some x
  | key :: keys, last, h => by
      rw [emits] at h
      split at h
      · obtain ⟨last', hk, he⟩ := emits_mem h
        exact ⟨last', List.mem_cons_of_mem _ hk, he⟩
      · rename_i y hy
        rcases List.mem_cons.mp h with rfl | h
        · have hkey := (emit_eq_some hy).2.1
          exact ⟨last, by simp [hkey], by rwa [hkey]⟩
        · obtain ⟨last', hk, he⟩ := emits_mem h
          exact ⟨last', List.mem_cons_of_mem _ hk, he⟩

/-- What is reported after a common prefix lies strictly after it. -/
theorem lt_of_mem_emits {c : String} {x : Emit} : ∀ {keys : List String},
    keys.Pairwise (fun a b => utf8 a < utf8 b) →
    (∀ k ∈ keys, utf8 pfx <+: utf8 k → utf8 c ≤ utf8 (itemOf pfx delimiter k) ∧
      (itemOf pfx delimiter k = c → foldOf pfx delimiter k = some c)) →
    x ∈ emits entryOf pfx delimiter start (some c) keys → utf8 c < utf8 x.item
  | key :: keys, hs, hc, h => by
      obtain ⟨hfirst, hrest⟩ := List.pairwise_cons.mp hs
      have hc' := fun k hk => hc k (List.mem_cons_of_mem key hk)
      rw [emits] at h
      split at h
      · exact lt_of_mem_emits hrest hc' h
      · rename_i y hy
        obtain ⟨hp, hkey, hfold, hitem, -, -, hlast⟩ := emit_eq_some hy
        obtain ⟨hle, heq⟩ := hc key List.mem_cons_self hp
        have hne : itemOf pfx delimiter key ≠ c := by
          intro he
          exact hlast ⟨by simp [heq he], (heq he).symm⟩
        have hlt : utf8 c < utf8 (itemOf pfx delimiter key) :=
          lt_of_le_of_ne hle fun he => hne (utf8_inj.mp he).symm
        rcases List.mem_cons.mp h with rfl | h
        · rwa [hitem]
        · cases hf : foldOf pfx delimiter key with
          | none =>
              rw [hfold, hf, Option.none_or] at h
              exact lt_of_mem_emits hrest hc' h
          | some d =>
              rw [hfold, hf, Option.some_or] at h
              rw [itemOf_of_fold hf] at hlt
              refine hlt.trans (lt_of_mem_emits hrest ?_ h)
              intro k hk hpk
              refine ⟨?_, foldOf_of_itemOf_eq hp hpk hf⟩
              have hmono := itemOf_mono delimiter hp hpk (hfirst k hk).le
              rwa [itemOf_of_fold hf] at hmono

/-- **The items are reported in strictly ascending order.** -/
theorem emits_ascending : ∀ {keys : List String} {last : Option String},
    keys.Pairwise (fun a b => utf8 a < utf8 b) →
    (emits entryOf pfx delimiter start last keys).Pairwise fun x y => utf8 x.item < utf8 y.item
  | [], _, _ => by simp [emits]
  | key :: keys, last, hs => by
      obtain ⟨hfirst, hrest⟩ := List.pairwise_cons.mp hs
      rw [emits]
      split
      · exact emits_ascending hrest
      · rename_i x hx
        obtain ⟨hp, hkey, hfold, hitem, -, -, -⟩ := emit_eq_some hx
        refine List.pairwise_cons.mpr ⟨fun y hy => ?_, emits_ascending hrest⟩
        rw [hitem]
        cases hf : foldOf pfx delimiter key with
        | some c =>
            rw [hfold, hf, Option.some_or] at hy
            rw [itemOf_of_fold hf]
            refine lt_of_mem_emits hrest (fun k hk hpk => ?_) hy
            refine ⟨?_, foldOf_of_itemOf_eq hp hpk hf⟩
            have hmono := itemOf_mono delimiter hp hpk (hfirst k hk).le
            rwa [itemOf_of_fold hf] at hmono
        | none =>
            -- a whole key: no later key has it as its item
            obtain ⟨last', hmem, hy'⟩ := emits_mem hy
            obtain ⟨hpy, -, -, hitemy, -, -, -⟩ := emit_eq_some hy'
            have hmono := itemOf_mono delimiter hp hpy (hfirst _ hmem).le
            rw [hitemy]
            refine lt_of_le_of_ne hmono fun heq => ?_
            have hsame := (utf8_inj.mp heq).symm
            rw [itemOf_of_whole hf] at hsame
            cases hfy : foldOf pfx delimiter y.key with
            | none =>
                rw [itemOf_of_whole hfy] at hsame
                exact absurd (hfirst _ hmem) (by rw [hsame]; exact lt_irrefl _)
            | some c =>
                rw [itemOf_of_fold hfy] at hsame
                have hkf : foldOf pfx delimiter key = some c :=
                  foldOf_of_itemOf_eq hpy hp hfy (by rw [itemOf_of_whole hf, hsame])
                rw [hf] at hkf
                cases hkf

/-- Every live key whose item lies past the bound has its item reported, unless it
is the group that was already open. -/
theorem item_mem_emits {k : String} {e : VersionEntry} (hp : utf8 pfx <+: utf8 k)
    (he : entryOf k = some e)
    (hs : (start.any fun s => strLe (itemOf pfx delimiter k) s) = false) :
    ∀ {keys : List String} (last : Option String), k ∈ keys →
      itemOf pfx delimiter k ∈ (emits entryOf pfx delimiter start last keys).map Emit.item ∨
        last = some (itemOf pfx delimiter k)
  | key :: keys, last, hk => by
      rcases List.mem_cons.mp hk with rfl | hk
      · cases hx : emit entryOf pfx delimiter start last k with
        | some x =>
            left
            rw [emits, hx, List.map_cons, (emit_eq_some hx).2.2.2.1]
            exact List.mem_cons_self
        | none =>
            right
            unfold emit at hx
            rw [if_neg (not_not.mpr hp), hs, if_neg (by decide), he] at hx
            split at hx
            · rename_i hopen
              obtain ⟨c, hc⟩ := Option.isSome_iff_exists.mp hopen.1
              rw [hopen.2, hc, itemOf_of_fold hc]
            · cases hx
      · cases hx : emit entryOf pfx delimiter start last key with
        | none =>
            rw [emits, hx]
            exact item_mem_emits hp he hs last hk
        | some x =>
            obtain ⟨hpx, -, hfold, hitem, -, -, -⟩ := emit_eq_some hx
            rw [emits, hx, List.map_cons]
            rcases item_mem_emits hp he hs (x.folded.or last) hk with h | h
            · exact .inl (List.mem_cons_of_mem _ h)
            · cases hf : x.folded with
              | none =>
                  rw [hf, Option.none_or] at h
                  exact .inr h
              | some c =>
                  rw [hf, Option.some_or, Option.some.injEq] at h
                  left
                  rw [hitem, ← h, itemOf_of_fold (hfold ▸ hf)]
                  exact List.mem_cons_self

/-- **Without a budget the loop reports the reference listing past the bound.** -/
theorem emits_items {keys : List String} (hs : keys.Pairwise fun a b => utf8 a < utf8 b) :
    (emits entryOf pfx delimiter start none keys).map Emit.item =
      beyond start (reference (keys.filter fun k => (entryOf k).isSome) pfx delimiter) := by
  refine eq_of_ascending ?_ ?_ fun i => ?_
  · rw [List.pairwise_map]
    exact emits_ascending hs
  · refine List.Pairwise.filter _ ?_
    refine dedup_ascending ?_
    rw [List.pairwise_map]
    refine ((hs.filter _).filter _).imp_of_mem fun {a b} ha hb hab => ?_
    exact itemOf_mono delimiter (of_decide_eq_true (List.mem_filter.mp ha).2)
      (of_decide_eq_true (List.mem_filter.mp hb).2) hab.le
  · simp only [beyond, reference, List.mem_filter, List.mem_dedup, List.mem_map, decide_eq_true_eq]
    constructor
    · rintro ⟨x, hx, rfl⟩
      obtain ⟨last, hmem, he⟩ := emits_mem hx
      obtain ⟨hp, -, -, hitem, hentry, hstart, -⟩ := emit_eq_some he
      refine ⟨⟨x.key, ⟨⟨hmem, by simp [hentry]⟩, hp⟩, hitem.symm⟩, ?_⟩
      rw [hitem]
      cases start with
      | none => rfl
      | some s => simpa using hstart
    · rintro ⟨⟨k, ⟨⟨hk, hsome⟩, hp⟩, rfl⟩, hstart⟩
      obtain ⟨e, he⟩ := Option.isSome_iff_exists.mp hsome
      have hstart' : (start.any fun s => strLe (itemOf pfx delimiter k) s) = false := by
        cases start with
        | none => rfl
        | some s => simpa using hstart
      rcases item_mem_emits hp he hstart' none hk with h | h
      · simpa using h
      · cases h

/-! ### Reporting a run of items -/

theorem foldl_push (es : List Emit) : ∀ out : ListResult,
    es.foldl ListResult.push out =
      { out with
        objects := out.objects ++
          (es.filter fun x => x.folded = none).map fun x => objectInfo x.key x.entry
        commonPrefixes := out.commonPrefixes ++ es.filterMap Emit.folded
        nextContinuationToken := (es.map Emit.item).getLast?.or out.nextContinuationToken } := by
  induction es with
  | nil => simp
  | cons x es ih =>
      intro out
      rw [List.foldl_cons, ih]
      cases hf : x.folded <;>
        simp [ListResult.push, hf, Emit.item, List.getLast?_cons]

/-- The objects and the common prefixes of a page are read off its items. -/
theorem filter_items {es : List Emit} {info : String → ObjectInfo}
    (hfold : ∀ x ∈ es, foldOf pfx delimiter x.item = x.folded)
    (hinfo : ∀ x ∈ es, info x.key = objectInfo x.key x.entry) :
    ((es.map Emit.item).filter fun i => foldOf pfx delimiter i = none).map info =
        ((es.filter fun x => x.folded = none).map fun x => objectInfo x.key x.entry) ∧
      ((es.map Emit.item).filter fun i => foldOf pfx delimiter i ≠ none) =
        es.filterMap Emit.folded := by
  induction es with
  | nil => simp
  | cons x es ih =>
      obtain ⟨ih₁, ih₂⟩ := ih (fun y hy => hfold y (List.mem_cons_of_mem x hy))
        (fun y hy => hinfo y (List.mem_cons_of_mem x hy))
      have hx := hfold x List.mem_cons_self
      have hi := hinfo x List.mem_cons_self
      cases hf : x.folded with
      | none =>
          rw [hf] at hx
          have hkey : x.item = x.key := by simp [Emit.item, hf]
          rw [hkey] at hx
          simp only [List.map_cons, hkey, List.filter_cons, hx, hf, decide_true, if_true, hi, ih₁,
            ne_eq, not_true_eq_false, decide_false, Bool.false_eq_true, if_false,
            List.filterMap_cons, true_and]
          exact ih₂
      | some c =>
          rw [hf] at hx
          have hitem : x.item = c := by simp [Emit.item, hf]
          rw [hitem] at hx
          simp only [List.map_cons, hitem, List.filter_cons, hx, hf, reduceCtorEq, decide_false,
            Bool.false_eq_true, if_false, ne_eq, not_false_eq_true, decide_true, if_true,
            List.filterMap_cons, ih₁, true_and, List.cons.injEq]
          exact ih₂

/-- **The loop computes the page of the reference listing.** -/
theorem pageFold_eq_page {keys : List String} {info : String → ObjectInfo} {p : ListParams}
    (hs : keys.Pairwise fun a b => utf8 a < utf8 b)
    (hinfo : ∀ k e, entryOf k = some e → info k = objectInfo k e) (hmax : p.maxKeys ≠ 0) :
    (let out := pageFold entryOf (p.pfx.getD "") (delimiterOf p) (startBound p) p.maxKeys keys
        .default
      if out.isTruncated then out else { out with nextContinuationToken := none }) =
      page (keys.filter fun k => (entryOf k).isSome) info p := by
  have hitems : (emits entryOf (p.pfx.getD "") (delimiterOf p) (startBound p) none keys).map
      Emit.item = _ := emits_items hs
  have hsize : ListResult.default.size = 0 := rfl
  have hfold : pageFold entryOf (p.pfx.getD "") (delimiterOf p) (startBound p) p.maxKeys keys
      .default = _ := pageFold_eq p.maxKeys keys (by rw [hsize]; omega) rfl
  have hlast : (ListResult.default.commonPrefixes.getLast? : Option String) = none := rfl
  rw [hlast] at hfold
  rw [page, if_neg hmax]
  simp only
  rw [hfold, ← hitems, List.length_map, ← List.map_take]
  generalize hes : emits entryOf (p.pfx.getD "") (delimiterOf p) (startBound p) none keys = es
  have hfolds : ∀ x ∈ es.take p.maxKeys,
      foldOf (p.pfx.getD "") (delimiterOf p) x.item = x.folded := by
    intro x hx
    obtain ⟨last, -, he⟩ := emits_mem (hes ▸ List.mem_of_mem_take hx)
    obtain ⟨hp, -, hfolded, hitem, -⟩ := emit_eq_some he
    rw [hitem, foldOf_itemOf hp, hfolded]
  have hinfos : ∀ x ∈ es.take p.maxKeys, info x.key = objectInfo x.key x.entry := by
    intro x hx
    obtain ⟨last, -, he⟩ := emits_mem (hes ▸ List.mem_of_mem_take hx)
    exact hinfo _ _ (emit_eq_some he).2.2.2.2.1
  obtain ⟨hobjects, hprefixes⟩ := filter_items hfolds hinfos
  rw [pageOf, hobjects, hprefixes, ListResult.report, hsize, Nat.sub_zero, foldl_push]
  by_cases hmore : p.maxKeys < es.length
  · simp only [hmore, decide_true, if_true, ListResult.default, List.nil_append, Option.or_none]
  · simp only [hmore, decide_false, Bool.false_eq_true, if_false, ListResult.default,
      List.nil_append]

end Loop

end Aks3.Engine
