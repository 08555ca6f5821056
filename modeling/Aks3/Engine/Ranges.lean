import Aks3.Engine.Reads

/-!
# The bytes of a ranged read

A range selects byte positions of an object; `selection` is that set, each
position by itself. `resolve_range` answers with the interval that is the
selection and refuses exactly a range that selects nothing. The data file is then
positioned at the interval, if the operating system can represent its start, and
what is streamed of it is what `fileStream_yields` says.

The source computes in `u64`. `resolveRangeChecked` and `fileStreamChecked` are
the two functions with every addition and subtraction checked; they have a value
for all inputs, and it is the one of the unchecked functions.
-/

set_option autoImplicit false

namespace Aks3.Engine

open Lib

/-! ## Which bytes a range selects -/

/-- Byte `i` of an object of `size` bytes is in the range. A suffix counts from the end. -/
def ByteRange.Selects (size i : Nat) : ByteRange → Prop
  | .fromTo first last => first ≤ i ∧ i ≤ last
  | .from first => first ≤ i
  | .suffix n => size - i ≤ n

instance (size i : Nat) : DecidablePred (ByteRange.Selects size i)
  | .fromTo _ _ => inferInstanceAs (Decidable (_ ∧ _))
  | .from _ => inferInstanceAs (Decidable (_ ≤ _))
  | .suffix _ => inferInstanceAs (Decidable (_ ≤ _))

/-- The positions a read is about, all of them without a range. -/
def selection (range : Option ByteRange) (size : Nat) : Finset Nat :=
  (Finset.range size).filter fun i => ∀ r ∈ range, r.Selects size i

theorem mem_selection {range : Option ByteRange} {size i : Nat} :
    i ∈ selection range size ↔ i < size ∧ ∀ r ∈ range, r.Selects size i := by
  simp [selection]

/-- The bytes of `data` at the positions of a set, in order. -/
def bytesAt (positions : Finset Nat) (data : Bytes) : Bytes :=
  (data.zipIdx.filter fun p => p.2 ∈ positions).map Prod.fst

/-- What `resolve_range` returns is the selection, as an interval. -/
theorem selection_of_resolveRange {range : Option ByteRange} {size offset len : Nat}
    (h : resolveRange range size = .ok (offset, len)) :
    selection range size = Finset.Ico offset (offset + len) ∧ (range.isSome → 0 < len) := by
  unfold resolveRange at h
  split at h
  · cases h
    exact ⟨by ext i; simp [mem_selection], by simp⟩
  · split at h
    · cases h
    · split at h <;> split at h <;> cases h <;>
        refine ⟨?_, fun _ => by omega⟩ <;> ext i <;>
        simp only [mem_selection, Option.mem_def, Option.some.injEq, forall_eq',
          ByteRange.Selects, Finset.mem_Ico] <;> omega

/-- A range is refused when it selects nothing. -/
theorem resolveRange_eq_error {range : Option ByteRange} {size : Nat} {e : EngineError} :
    resolveRange range size = .error e ↔
      e = .invalidRange ∧ range.isSome ∧ selection range size = ∅ := by
  cases hr : resolveRange range size with
  | ok ol =>
      obtain ⟨interval, pos⟩ := selection_of_resolveRange hr
      constructor
      · intro h
        cases h
      · rintro ⟨-, some, empty⟩
        rw [interval, Finset.Ico_eq_empty_iff] at empty
        have := pos some
        omega
  | error x =>
      have none : x = .invalidRange ∧ range.isSome ∧ selection range size = ∅ := by
        unfold resolveRange at hr
        split at hr
        · cases hr
        · split at hr
          · cases hr
            simp_all [selection]
          · split at hr <;> split at hr <;> cases hr <;>
              refine ⟨rfl, rfl, Finset.eq_empty_of_forall_notMem fun i hi => ?_⟩ <;>
              simp only [mem_selection, Option.mem_def, Option.some.injEq, forall_eq',
                ByteRange.Selects] at hi <;> omega
      constructor
      · intro h
        cases h
        exact none
      · rintro ⟨rfl, -⟩
        rw [none.1]

/-- The bytes at an interval are a slice. -/
theorem bytesAt_Ico (data : Bytes) (offset len : Nat) :
    bytesAt (Finset.Ico offset (offset + len)) data = (data.drop offset).take len := by
  suffices h : ∀ (data : Bytes) (start : Nat),
      ((data.zipIdx start).filter fun p => p.2 ∈ Finset.Ico offset (offset + len)).map Prod.fst =
        (data.drop (offset - start)).take (len + offset - max offset start) by
    simpa [bytesAt] using h data 0
  -- The induction moves the start of the numbering past `offset`, then past the end.
  intro data
  induction data with
  | nil => simp
  | cons byte data ih =>
      intro start
      rw [List.zipIdx_cons, List.filter_cons]
      by_cases before : start < offset
      · have skip : offset - start = (offset - (start + 1)) + 1 := by omega
        rw [if_neg (by simp; omega), ih, skip, List.drop_succ_cons,
          show max offset (start + 1) = max offset start by omega]
      · rw [show offset - start = 0 by omega, List.drop_zero]
        by_cases inside : start < offset + len
        · have more : len + offset - max offset start =
              (len + offset - max offset (start + 1)) + 1 := by omega
          rw [if_pos (by simp; omega), List.map_cons, ih, more, List.take_succ_cons,
            show offset - (start + 1) = 0 by omega, List.drop_zero]
        · rw [if_neg (by simp; omega), ih, show len + offset - max offset start = 0 by omega,
            show len + offset - max offset (start + 1) = 0 by omega, List.take_zero,
            List.take_zero]

/-! ## No overflow -/

/-- Addition of `u64` that fails on overflow. -/
def checkedAdd (a b : Nat) : Option Nat := if a + b < 2 ^ 64 then some (a + b) else none

/-- Subtraction of `u64` that fails on underflow. -/
def checkedSub (a b : Nat) : Option Nat := if b ≤ a then some (a - b) else none

/-- `resolve_range` with its arithmetic checked. -/
def resolveRangeChecked (range : Option ByteRange) (size : Nat) :
    Option (Except EngineError (Nat × Nat)) :=
  match range with
  | none => some (.ok (0, size))
  | some range =>
    if size = 0 then some (.error .invalidRange)
    else
      match range with
      | .fromTo first last =>
        if first > last ∨ first ≥ size then some (.error .invalidRange)
        else do
          let last := min last (← checkedSub size 1)
          let len ← checkedAdd (← checkedSub last first) 1
          pure (.ok (first, len))
      | .from first =>
        if first ≥ size then some (.error .invalidRange)
        else do
          let len ← checkedSub size first
          pure (.ok (first, len))
      | .suffix n =>
        if n = 0 then some (.error .invalidRange)
        else do
          let n := min n size
          let offset ← checkedSub size n
          pure (.ok (offset, n))

/-- The loop that fills a buffer of `want` bytes, `filled` of them so far, its count checked. -/
def fillBufChecked (read : Nat → Except IoError Nat) (data : Bytes) (want : Nat) :
    Nat → Nat → Nat → Option (Except IoError Bytes)
  | 0, _, _ => some (.ok [])
  | fuel + 1, pos, filled =>
    if filled < want then
      match read pos with
      | .error e => some (.error e)
      | .ok most => do
        let space ← checkedSub want filled
        let n := min space (min (data.length - pos) (max 1 most))
        if n = 0 then pure (.ok [])
        else
          let filled ← checkedAdd filled n
          let rest ← fillBufChecked read data want fuel (pos + n) filled
          pure (rest.map ((data.drop pos).take n ++ ·))
    else some (.ok [])

/-- `file_stream` with its arithmetic checked. -/
def fileStreamChecked (reads : ReadAnswers) (data : Bytes) :
    Nat → Nat → Nat → Nat → Option ByteStream
  | 0, _, _, _ => some []
  | fuel + 1, i, pos, remaining =>
    if remaining = 0 then some []
    else do
      let want := min remaining READ_CHUNK
      match ← fillBufChecked (reads i) data want want pos 0 with
      | .error e => pure [.error e]
      | .ok buf =>
        if buf = [] then pure [.error shortFile]
        else
          let remaining ← checkedSub remaining buf.length
          let rest ← fileStreamChecked reads data fuel (i + 1) (pos + buf.length) remaining
          pure (.ok buf :: rest)

theorem checkedAdd_of_lt {a b : Nat} (h : a + b < 2 ^ 64) : checkedAdd a b = some (a + b) :=
  if_pos h

theorem checkedSub_of_le {a b : Nat} (h : b ≤ a) : checkedSub a b = some (a - b) :=
  if_pos h

theorem resolveRangeChecked_eq {range : Option ByteRange} {size : Nat} (hsize : size < 2 ^ 64) :
    resolveRangeChecked range size = some (resolveRange range size) := by
  unfold resolveRangeChecked resolveRange
  cases range with
  | none => rfl
  | some range =>
      dsimp only
      by_cases hz : size = 0
      · rw [if_pos hz, if_pos hz]
      rw [if_neg hz, if_neg hz]
      cases range with
      | fromTo first last =>
          dsimp only
          split
          · rfl
          · rw [checkedSub_of_le (by omega)]
            simp only [Option.bind_eq_bind, Option.bind_some]
            rw [checkedSub_of_le (by omega), Option.bind_some, checkedAdd_of_lt (by omega)]
            rfl
      | «from» first =>
          dsimp only
          split
          · rfl
          · rw [checkedSub_of_le (by omega)]
            rfl
      | suffix n =>
          dsimp only
          split
          · rfl
          · rw [checkedSub_of_le (by omega)]
            rfl

theorem fillBufChecked_eq (read : Nat → Except IoError Nat) (data : Bytes) {want : Nat}
    (hwant : want < 2 ^ 64) : ∀ (fuel pos filled : Nat), filled ≤ want →
      fillBufChecked read data want fuel pos filled =
        some (fillBuf read data fuel pos (want - filled))
  | 0, pos, filled, _ => rfl
  | fuel + 1, pos, filled, h => by
      rw [fillBufChecked, fillBuf]
      by_cases more : filled < want
      swap
      · rw [if_neg more, if_pos (by omega)]
      rw [if_pos more, if_neg (by omega)]
      cases read pos with
      | error e => rfl
      | ok most =>
          simp only [checkedSub_of_le h, Option.bind_eq_bind, Option.bind_some, Except.bind]
          split
          · rfl
          · generalize hn : min (want - filled) (min (data.length - pos) (max 1 most)) = n
            rw [checkedAdd_of_lt (by omega), Option.bind_some,
              fillBufChecked_eq read data hwant fuel (pos + n) (filled + n) (by omega),
              Nat.sub_add_eq]
            rfl

theorem fileStreamChecked_eq (reads : ReadAnswers) (data : Bytes) :
    ∀ (fuel i pos remaining : Nat), fileStreamChecked reads data fuel i pos remaining =
      some (fileStream reads data fuel i pos remaining)
  | 0, i, pos, remaining => rfl
  | fuel + 1, i, pos, remaining => by
      rw [fileStreamChecked, fileStream]
      split
      · rfl
      have hchunk : READ_CHUNK < 2 ^ 64 := by decide
      dsimp only
      rw [fillBufChecked_eq (reads i) data (by omega) _ _ _ (Nat.zero_le _), Nat.sub_zero]
      simp only [Option.bind_eq_bind, Option.bind_some]
      rcases fillBuf_cases (reads i) data _ pos (min remaining READ_CHUNK) le_rfl with
        hfill | ⟨p, e, -, hfill⟩
      swap
      · rw [hfill]
        rfl
      rw [hfill]
      dsimp only
      split
      · rfl
      · have hlen : ((data.drop pos).take (min remaining READ_CHUNK)).length ≤ remaining := by
          rw [List.length_take]
          omega
        rw [checkedSub_of_le hlen, Option.bind_some, fileStreamChecked_eq reads data fuel]
        rfl

/-! ## Running the read -/

variable {env : Env OsName} {C : Crates} {w : World OsName} {b k : String}

/-- What `get_object` returns for an object whose version and data file are there. -/
theorem getObject_stream (hs : Shaped env.fits w.tree) (hv : isValidBucketName b = true)
    (hst : Storable env.fits b k) (hd : w.tree.IsDir (bucketDir b)) {e : VersionEntry}
    (he : entryAt C w.tree b k = .ok e) {data : Bytes}
    (hdata : w.tree.fileAt (dataPath (objectDir (bucketDir b) k) e.versionId) = some data)
    (range : Option ByteRange) :
    ∃ w', (getObject C b k range).run.run (engineExec env) w =
      ((resolveRange range e.size).bind fun r =>
        if env.reaches data.length r.1 then
          .ok (objectInfo k e, r.1, r.2, fun reads => fileStream reads data r.2 0 r.1 r.2)
        else .error (.io (ErrorKind.os .invalidInput)), w') := by
  obtain ⟨w', hrun, ht⟩ := existingBucketDir_run hs hv hst.bucket
  refine ⟨w', ?_⟩
  rw [if_pos hd] at hrun
  have htree : w'.tree = w.tree := by rw [World.tree, ht.fs]
  have hs' : Shaped env.fits w'.tree := by rwa [htree]
  have hlive := liveVersion_run (C := C) hs' hst.manifest
  rw [htree, he] at hlive
  rw [getObject, Prog.run_bind_ok hrun, Prog.run_bind_ok hlive]
  dsimp only
  cases resolveRange range e.size with
  | error x => rfl
  | ok r =>
      have hrange : (ExceptT.mk (pure (Except.ok r)) : EngineM (Nat × Nat)).run.run
          (engineExec env) w' = (.ok r, w') := rfl
      have hfit : Fit env.fits (dataPath (objectDir (bucketDir b) k) e.versionId) :=
        hs.fit _ (FileTree.find_ne_none_of_fileAt (by rw [hdata]; exact Option.some_ne_none _))
      rw [← htree] at hdata
      rw [Prog.run_bind_ok hrange, Prog.run_bind_lift (read_run _), Fs.readFile_ok hfit hdata]
      refine (seekStart_bind env data.length r.1 w' _).trans ?_
      simp only [Except.bind]
      split <;> rfl

end Aks3.Engine
