import Aks3.Api.Service
import Aks3.Engine.Ranges
import Aks3.Engine.Sample

/-!
# Ranged downloads

A `GET` answers with the bytes at the positions its range selects, in chunks, and with
headers that name how many they are and where they lie (`ranged_read`). What is missing
from a data file shorter than its manifest shows as one error at the end of the body, if
it is among what was asked for; and so does a read that fails. If all that was asked for
is missing, the operating system may refuse to go there, and the request fails.
`Content-Length` is a signed number on the wire and stops at its largest value.
-/

set_option autoImplicit false

namespace Aks3.Api

open Lib Engine

/-- What a `GET` of an object of `size` bytes answers with, `data` being its data file. -/
structure Serves (reads : ReadAnswers) (out : GetObjectOutput) (range : Option ByteRange)
    (size : Nat) (data : Bytes) : Prop where
  body : Yields reads (bytesAt (selection range size) data)
    (∀ i ∈ selection range size, i < data.length) 0 out.body
  length : out.contentLength = min (selection range size).card (2 ^ 63 - 1)
  span : range.isSome → ∃ first last, IsLeast (selection range size : Set Nat) first ∧
    IsGreatest (selection range size : Set Nat) last ∧
    out.contentRange =
      some ("bytes " ++ toString first ++ "-" ++ toString last ++ "/" ++ toString size)
  whole : range = none → out.contentRange = none

/-- The first position asked for is past the end of the data file, and is none that the
operating system can represent. -/
def SeekRefused (env : Env OsName) (range : Option ByteRange) (size : Nat) (data : Bytes) : Prop :=
  ∃ first, IsLeast (selection range size : Set Nat) first ∧ data.length < first ∧
    env.seeks first = false

theorem wireLength_eq (len : Nat) : wireLength len = min len (2 ^ 63 - 1) := by
  unfold wireLength
  split <;> omega

/-- The whole interval is in the file when its last byte is. -/
theorem forall_mem_Ico_lt {offset len n : Nat} :
    (∀ i ∈ Finset.Ico offset (offset + len), i < n) ↔ len = 0 ∨ offset + len ≤ n := by
  constructor
  · intro h
    by_cases hz : len = 0
    · exact .inl hz
    · have := h (offset + len - 1) (by simp; omega)
      omega
  · intro h i hi
    rw [Finset.mem_Ico] at hi
    omega

/-- The `Content-Range` of a resolved range names its ends. -/
theorem contentRange_eq {offset len size : Nat} (hle : offset + len ≤ size)
    (hsize : size < 2 ^ 64) :
    contentRange offset len size =
      "bytes " ++ toString offset ++ "-" ++ toString (offset + len - 1) ++
        "/" ++ toString size := by
  rw [contentRange, Nat.min_eq_left (by omega)]

variable {env : Env OsName} {C : Crates} {w : World OsName}

/-- The seek is refused just where the interval starts at no position that can be reached. -/
theorem seekRefused_iff {range : Option ByteRange} {size offset len : Nat} {data : Bytes}
    (hr : resolveRange range size = .ok (offset, len)) :
    SeekRefused env range size data ↔ env.reaches data.length offset = false := by
  obtain ⟨interval, pos⟩ := selection_of_resolveRange hr
  have hreaches : env.reaches data.length offset = false ↔
      data.length < offset ∧ env.seeks offset = false := by
    rw [Env.reaches, Bool.or_eq_false_iff, decide_eq_false_iff_not, Nat.not_le]
  rw [hreaches, SeekRefused, interval, Finset.coe_Ico]
  constructor
  · rintro ⟨first, least, past, unseekable⟩
    have hlt := Set.nonempty_Ico.mp ⟨first, least.1⟩
    obtain rfl := least.unique (isLeast_Ico hlt)
    exact ⟨past, unseekable⟩
  · rintro ⟨past, unseekable⟩
    refine ⟨offset, isLeast_Ico ?_, past, unseekable⟩
    -- Without a range the interval starts at the start of the file.
    cases range with
    | none =>
        cases hr
        exact absurd past (Nat.not_lt_zero _)
    | some r => exact Nat.lt_add_of_pos_right (pos rfl)

/-- The response to a read that the engine accepts. -/
theorem serves_of_resolve {reads : ReadAnswers} {range : Option ByteRange} {size offset len : Nat}
    {data : Bytes} {out : GetObjectOutput} (hsize : size < 2 ^ 64)
    (hr : resolveRange range size = .ok (offset, len))
    (hbody : out.body = fileStream reads data len 0 offset len)
    (hlength : out.contentLength = wireLength len)
    (hspan : out.contentRange = range.map fun _ => contentRange offset len size) :
    Serves reads out range size data := by
  obtain ⟨interval, pos⟩ := selection_of_resolveRange hr
  have hle := resolveRange_le hr
  refine ⟨?_, ?_, fun some => ?_, ?_⟩
  · rw [hbody, interval, bytesAt_Ico, decide_eq_decide.mpr forall_mem_Ico_lt]
    exact fileStream_yields reads data len 0 offset len le_rfl
  · rw [hlength, wireLength_eq, interval, Nat.card_Ico, Nat.add_sub_cancel_left]
  · have hpos := pos some
    obtain ⟨r, rfl⟩ := Option.isSome_iff_exists.mp some
    refine ⟨offset, offset + len - 1, ?_, ?_, ?_⟩
    · rw [interval, Finset.coe_Ico]
      exact isLeast_Ico (by omega)
    · rw [interval, Finset.coe_Ico]
      refine ⟨by rw [Set.mem_Ico]; omega, fun i hi => ?_⟩
      rw [Set.mem_Ico] at hi
      omega
    · rw [hspan, Option.map_some, contentRange_eq hle hsize]
  · rintro rfl
    rw [hspan]
    rfl

section Requests

variable (req : S3Request GetObjectInput) (hs : Shaped env.fits w.tree)
  (hv : isValidBucketName req.input.bucket = true)
  (hst : Storable env.fits req.input.bucket req.input.key)
  (hd : w.tree.IsDir (bucketDir req.input.bucket)) {e : VersionEntry}
  (he : entryAt C w.tree req.input.bucket req.input.key = .ok e) {data : Bytes}
  (hdata : w.tree.fileAt
    (dataPath (objectDir (bucketDir req.input.bucket) req.input.key) e.versionId) = some data)

include hs hv hst hd he hdata

/-- A `GET` whose range selects something serves it, whatever becomes of its reads. -/
theorem getObject_serves (hsize : e.size < 2 ^ 64)
    (hsel : ¬ (req.input.range.isSome ∧ selection (req.input.range.map toByteRange) e.size = ∅))
    (hseek : ¬ SeekRefused env (req.input.range.map toByteRange) e.size data)
    (reads : ReadAnswers) :
    ∃ out w', runAlone env (getObject C reads req).run w = (.ok out, w') ∧
      Serves reads out (req.input.range.map toByteRange) e.size data := by
  obtain ⟨w', hrun⟩ := getObject_stream hs hv hst hd he hdata (req.input.range.map toByteRange)
  cases hr : resolveRange (req.input.range.map toByteRange) e.size with
  | error x =>
      have empty := (resolveRange_eq_error.mp hr).2
      rw [Option.isSome_map] at empty
      exact absurd empty hsel
  | ok r =>
      rw [seekRefused_iff hr, Bool.not_eq_false] at hseek
      rw [hr, Except.bind, if_pos hseek] at hrun
      exact ⟨_, w', Prog.run_bind_lift hrun, serves_of_resolve hsize hr rfl rfl rfl⟩

/-- A `GET` of what the operating system cannot go to fails. -/
theorem getObject_refused (hseek : SeekRefused env (req.input.range.map toByteRange) e.size data)
    (reads : ReadAnswers) :
    ∃ w', (Engine.getObject C req.input.bucket req.input.key
        (req.input.range.map toByteRange)).run.run (engineExec env) w =
          (.error (.io (ErrorKind.os .invalidInput)), w') ∧
      runAlone env (getObject C reads req).run w = (.error ⟨.internalError, none⟩, w') := by
  obtain ⟨w', hrun⟩ := getObject_stream hs hv hst hd he hdata (req.input.range.map toByteRange)
  cases hr : resolveRange (req.input.range.map toByteRange) e.size with
  | error x =>
      obtain ⟨first, least, -⟩ := hseek
      rw [(resolveRange_eq_error.mp hr).2.2, Finset.coe_empty] at least
      exact least.1.elim
  | ok r =>
      rw [seekRefused_iff hr] at hseek
      rw [hr, Except.bind, hseek] at hrun
      exact ⟨w', hrun, Prog.run_bind_lift hrun⟩

/-- The `GET` of an object whose version and data file are there answers `InvalidRange`
exactly when a range selects none of its positions. Otherwise it fails if the operating
system refuses to go to the first of them, and else serves what it selects, whatever
becomes of its reads. No step of the arithmetic overflows. -/
theorem ranged_read (hsize : e.size < 2 ^ 64) :
    (((Engine.getObject C req.input.bucket req.input.key
        (req.input.range.map toByteRange)).run.run (engineExec env) w).1 = .error .invalidRange ↔
      req.input.range.isSome ∧ selection (req.input.range.map toByteRange) e.size = ∅) ∧
    (¬ (req.input.range.isSome ∧ selection (req.input.range.map toByteRange) e.size = ∅) →
      ¬ SeekRefused env (req.input.range.map toByteRange) e.size data → ∀ reads, ∃ out w',
        runAlone env (getObject C reads req).run w = (.ok out, w') ∧
          Serves reads out (req.input.range.map toByteRange) e.size data) ∧
    (SeekRefused env (req.input.range.map toByteRange) e.size data → ∀ reads, ∃ w',
      (Engine.getObject C req.input.bucket req.input.key
        (req.input.range.map toByteRange)).run.run (engineExec env) w =
          (.error (.io (ErrorKind.os .invalidInput)), w') ∧
      runAlone env (getObject C reads req).run w = (.error ⟨.internalError, none⟩, w')) ∧
    resolveRangeChecked (req.input.range.map toByteRange) e.size =
      some (resolveRange (req.input.range.map toByteRange) e.size) ∧
    ∀ reads offset len, fileStreamChecked reads data len 0 offset len =
      some (fileStream reads data len 0 offset len) := by
  obtain ⟨w', hrun⟩ := getObject_stream hs hv hst hd he hdata (req.input.range.map toByteRange)
  refine ⟨?_, getObject_serves req hs hv hst hd he hdata hsize,
    getObject_refused req hs hv hst hd he hdata, resolveRangeChecked_eq hsize,
    fun reads offset len => fileStreamChecked_eq reads data len 0 offset len⟩
  rw [hrun, ← Option.isSome_map]
  cases hr : resolveRange (req.input.range.map toByteRange) e.size with
  | error x =>
      obtain ⟨rfl, empty⟩ := resolveRange_eq_error.mp hr
      exact ⟨fun _ => empty, fun _ => rfl⟩
  | ok r =>
      refine ⟨fun h => ?_, fun empty => ?_⟩
      · rw [Except.bind] at h
        split at h <;> cases h
      · rw [resolveRange_eq_error.mpr ⟨rfl, empty⟩] at hr
        cases hr

end Requests

/-- A `GET` of the sample object. -/
def sampleGet (range : Option DtoRange) : S3Request GetObjectInput :=
  { input := ⟨"aaa", "k", range, none⟩, headers := ⟨[]⟩, trailingHeaders := none }

/-- The sample object's own request meets what a ranged read needs. -/
theorem sampleGet_serves (size : Nat) (hsize : size < 2 ^ 64) (data : Bytes)
    (range : Option DtoRange)
    (hsel : ¬ (range.isSome ∧ selection (range.map toByteRange) size = ∅))
    (hseek : ¬ SeekRefused sampleEnv (range.map toByteRange) size data) (reads : ReadAnswers) :
    ∃ out w', runAlone sampleEnv (getObject (sizedCrates size) reads (sampleGet range)).run
        (objectWorld size data) = (.ok out, w') ∧
      Serves reads out (range.map toByteRange) size data :=
  have valid : isValidBucketName "aaa" = true := by decide
  getObject_serves (sampleGet range) (shaped_objectTree _ _) valid
    ⟨fun _ _ => rfl, fun _ _ => rfl⟩ ⟨2, rfl⟩ (entryAt_objectWorld size data)
    (dataAt_objectWorld size data) hsize hsel hseek reads

/-- The data file of `k` has one byte of the two its manifest records, and the range asks
for that byte: there is no error. Of `2 ^ 63` bytes `Content-Length` counts one less. And
if one byte is there of `2 ^ 64 - 1`, and the range starts at `2 ^ 63`, there is no body. -/
theorem ranged_read_fails :
    (∃ out w', runAlone sampleEnv (getObject (sizedCrates 2) sampleCrates.steady
        (sampleGet (some (.int 0 (some 0))))).run (objectWorld 2 (utf8 "a")) = (.ok out, w') ∧
      ∀ e, Except.error e ∉ out.body) ∧
    (∃ out w', runAlone sampleEnv (getObject (sizedCrates (2 ^ 63)) sampleCrates.steady
        (sampleGet none)).run (objectWorld (2 ^ 63) (List.replicate (2 ^ 63) 0)) = (.ok out, w') ∧
      out.contentLength ≠ (selection none (2 ^ 63)).card) ∧
    ∃ w', runAlone sampleEnv (getObject (sizedCrates (2 ^ 64 - 1)) sampleCrates.steady
        (sampleGet (some (.int (2 ^ 63) none)))).run (objectWorld (2 ^ 64 - 1) (utf8 "a")) =
      (.error ⟨.internalError, none⟩, w') := by
  refine ⟨?_, ?_, ?_⟩
  · have one : selection (some (.fromTo 0 0)) 2 = {0} := by decide
    have seek : ¬ SeekRefused sampleEnv (some (.fromTo 0 0)) 2 (utf8 "a") := by
      rintro ⟨first, least, past, -⟩
      have mem : first ∈ selection (some (.fromTo 0 0)) 2 := least.1
      rw [one, Finset.mem_singleton] at mem
      rw [mem] at past
      exact absurd past (Nat.not_lt_zero _)
    obtain ⟨out, w', run, serves⟩ := sampleGet_serves 2 (by decide) (utf8 "a")
      (some (.int 0 (some 0)))
      (fun h => Finset.singleton_ne_empty 0 (one.symm.trans h.2)) seek sampleCrates.steady
    refine ⟨out, w', run, fun e mem => ?_⟩
    obtain ⟨chunks, -, ⟨-, body⟩ | ⟨pos, x, hread, -⟩⟩ := serves.body
    · have all : ∀ i ∈ selection (some (.fromTo 0 0)) 2, i < (utf8 "a").length := by
        rw [one]
        decide
      rw [body, Option.map_some, toByteRange, if_pos (decide_eq_true all), List.append_nil] at mem
      obtain ⟨c, -, hc⟩ := List.mem_map.mp mem
      cases hc
    · exact absurd hread (sampleCrates.steady_ok _ _ _)
  · have resolved : resolveRange none (2 ^ 63) = .ok (0, 2 ^ 63) := rfl
    have seek : ¬ SeekRefused sampleEnv none (2 ^ 63) (List.replicate (2 ^ 63) 0) := by
      rw [seekRefused_iff resolved, Env.reaches_of_le _ (Nat.zero_le _)]
      nofun
    obtain ⟨out, w', run, serves⟩ := sampleGet_serves (2 ^ 63) (by decide)
      (List.replicate (2 ^ 63) 0) none (by simp) seek sampleCrates.steady
    refine ⟨out, w', run, ?_⟩
    have card : (selection none (2 ^ 63)).card = 2 ^ 63 := by
      rw [selection, Finset.filter_true_of_mem (by simp), Finset.card_range]
    rw [serves.length, Option.map_none, card]
    decide
  · have valid : isValidBucketName "aaa" = true := by decide
    have resolved : resolveRange (some (.from (2 ^ 63))) (2 ^ 64 - 1) =
        .ok (2 ^ 63, 2 ^ 63 - 1) := by decide
    have seek : SeekRefused sampleEnv (some (.from (2 ^ 63))) (2 ^ 64 - 1) (utf8 "a") :=
      (seekRefused_iff resolved).mpr (by decide)
    obtain ⟨w', -, run⟩ := getObject_refused (sampleGet (some (.int (2 ^ 63) none)))
      (shaped_objectTree _ _) valid ⟨fun _ _ => rfl, fun _ _ => rfl⟩ ⟨2, rfl⟩
      (entryAt_objectWorld (2 ^ 64 - 1) (utf8 "a")) (dataAt_objectWorld (2 ^ 64 - 1) (utf8 "a"))
      seek sampleCrates.steady
    exact ⟨w', run⟩

/-- The theorem applies to the object `k` that holds `a`. -/
theorem ranged_read_sample :
    ((Engine.getObject (sizedCrates 1) "aaa" "k" (some (.from 1))).run.run
      (engineExec sampleEnv) (objectWorld 1 (utf8 "a"))).1 = .error .invalidRange :=
  (ranged_read (sampleGet (some (.int 1 none))) (shaped_objectTree _ _) (by decide)
    ⟨fun _ _ => rfl, fun _ _ => rfl⟩ ⟨2, rfl⟩ (entryAt_objectWorld 1 (utf8 "a"))
    (dataAt_objectWorld 1 (utf8 "a")) (by decide)).1.mpr ⟨rfl, by decide⟩

end Aks3.Api
