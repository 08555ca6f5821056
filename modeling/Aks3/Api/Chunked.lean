import Aks3.Api.Service

/-!
# Chunk framing and the guard of `put_object`

A body in aws-chunked framing is decoded before it gets to the handler exactly if
`x-amz-content-sha256` is a streaming sentinel. Two other headers announce the framing, and the
guard refuses a request that announces it without a sentinel. It looks at one line of each
header, and only at a line that is a text: `guard_exact_iff` says for which headers that is the
whole of what they announce.
-/

set_option autoImplicit false

namespace Aks3.Api

open Lib Engine

/-- What the `Content-Encoding` lines mean together: the list their values make, joined by
commas. -/
def contentEncoding (headers : HeaderMap) : Bytes :=
  [0x2C].intercalate (headers.getAll CONTENT_ENCODING)

/-- Whether a value is a streaming sentinel, in any case of its letters. -/
def isSentinel (value : Bytes) : Bool :=
  STREAMING_SENTINELS.any fun streaming => eqIgnoreAsciiCase value streaming

/-- Whether the body was decoded on its way to the handler. -/
def decoded (headers : HeaderMap) : Bool := (headers.get X_AMZ_CONTENT_SHA256).any isSentinel

/-- Whether the first `Content-Encoding` line announces the framing, read as a text. -/
def firstLineAnnounces (headers : HeaderMap) : Bool :=
  ((headers.get CONTENT_ENCODING).bind toStr).any declaresAwsChunked

/-! ## Lists of tokens -/

theorem splitOn_comma (x y : Bytes) :
    (x ++ 0x2C :: y).splitOn 0x2C = x.splitOn 0x2C ++ y.splitOn 0x2C := by
  induction x with
  | nil => rw [List.nil_append, List.splitOn_cons_eq_if_modifyHead, if_pos (by simp)]; simp
  | cons b x ih =>
      rw [List.cons_append, List.splitOn_cons_eq_if_modifyHead,
        List.splitOn_cons_eq_if_modifyHead b x, ih]
      split
      · rfl
      · cases hx : x.splitOn 0x2C with
        | nil => exact absurd hx (List.splitOn_ne_nil _ _)
        | cons token rest => rfl

theorem declaresAwsChunked_comma (x y : Bytes) :
    declaresAwsChunked (x ++ 0x2C :: y) = (declaresAwsChunked x || declaresAwsChunked y) := by
  rw [declaresAwsChunked, splitOn_comma, List.any_append]
  rfl

/-- A joined list announces what one of its parts does. -/
theorem declaresAwsChunked_intercalate : ∀ values : List Bytes,
    declaresAwsChunked ([0x2C].intercalate values) = values.any declaresAwsChunked
  | [] => by decide
  | [value] => by rw [List.intercalate_singleton, List.any_cons, List.any_nil, Bool.or_false]
  | value :: value' :: values => by
      rw [List.intercalate_cons_cons, List.append_assoc, List.singleton_append,
        declaresAwsChunked_comma,
        declaresAwsChunked_intercalate (value' :: values), List.any_cons (a := value)]

/-! ## Reading one line -/

/-- A byte that lowercases to visible ASCII is visible ASCII. -/
theorem visible_of_asciiLower : ∀ b : UInt8,
    (0x20 ≤ asciiLower b && asciiLower b < 0x7F) = true → (0x20 ≤ b && b < 0x7F) = true := by
  apply forall_uint8
  decide +kernel

/-- A sentinel is a text, so reading the header as one loses nothing. -/
theorem toStr_of_isSentinel {value : Bytes} (h : isSentinel value = true) :
    toStr value = some value := by
  obtain ⟨streaming, hmem, heq⟩ := List.any_eq_true.mp h
  have same : value.map asciiLower = streaming.map asciiLower := of_decide_eq_true heq
  have sentinels : (STREAMING_SENTINELS.all fun s =>
      (s.map asciiLower).all fun b => 0x20 ≤ b && b < 0x7F) = true := by decide
  have visible := List.all_eq_true.mp sentinels streaming hmem
  rw [← same, List.all_map] at visible
  refine if_pos (List.all_eq_true.mpr fun b hb => ?_)
  have low := visible_of_asciiLower b (List.all_eq_true.mp visible b hb)
  rw [Bool.or_eq_true]
  exact .inr low

theorem decoded_eq (headers : HeaderMap) :
    (((headers.get X_AMZ_CONTENT_SHA256).bind toStr).any fun sentinel =>
      STREAMING_SENTINELS.any fun streaming => eqIgnoreAsciiCase sentinel streaming) =
        decoded headers := by
  rw [decoded]
  cases headers.get X_AMZ_CONTENT_SHA256 with
  | none => rfl
  | some value =>
      rw [Option.bind_some, Option.any_some]
      cases hs : isSentinel value with
      | true =>
          rw [toStr_of_isSentinel hs]
          exact hs
      | false =>
          cases ht : toStr value with
          | none => rfl
          | some text =>
              rw [Option.any_some, toStr_eq_some ht]
              exact hs

/-- What the guard tests. -/
theorem guard_eq_ok_iff (headers : HeaderMap) : rejectContradictoryAwsChunked headers = .ok () ↔
    firstLineAnnounces headers = false ∧ headers.containsKey X_AMZ_DECODED_CONTENT_LENGTH = false ∨
      decoded headers = true := by
  unfold rejectContradictoryAwsChunked
  dsimp only
  rw [decoded_eq]
  change (if (!firstLineAnnounces headers &&
    !headers.containsKey X_AMZ_DECODED_CONTENT_LENGTH) = true then _ else _) = _ ↔ _
  cases firstLineAnnounces headers <;> cases headers.containsKey X_AMZ_DECODED_CONTENT_LENGTH <;>
    cases decoded headers <;> simp

/-- The first line is part of the list. -/
theorem announces_of_firstLine {headers : HeaderMap} (h : firstLineAnnounces headers = true) :
    declaresAwsChunked (contentEncoding headers) = true := by
  rw [contentEncoding, declaresAwsChunked_intercalate, List.any_eq_true]
  unfold firstLineAnnounces at h
  cases ht : (headers.get CONTENT_ENCODING).bind toStr with
  | none =>
      rw [ht] at h
      cases h
  | some text =>
      rw [ht, Option.any_some] at h
      obtain ⟨value, hv, htext⟩ := Option.bind_eq_some_iff.mp ht
      exact ⟨value, HeaderMap.get_mem_getAll hv, toStr_eq_some htext ▸ h⟩

/-! ## What the guard lets through -/

/-- The guard passes a request exactly if nothing announces the framing or the framing was decoded,
and no request that announces it gets to the engine undecoded. -/
def GuardExact (headers : HeaderMap) : Prop :=
  (rejectContradictoryAwsChunked headers = .ok () ↔
    declaresAwsChunked (contentEncoding headers) = false ∧
        headers.containsKey X_AMZ_DECODED_CONTENT_LENGTH = false ∨ decoded headers = true) ∧
  ∀ (C : Crates) (req : S3Request PutObjectInput), req.headers = headers →
    declaresAwsChunked (contentEncoding headers) = true → decoded headers = false →
    ∃ e, (putObject C req).run = pure (.error e)

/-- **The guard is exact for the headers of which one line says all**: if the lines of
`Content-Encoding` announce the framing together, the first one does by itself and as a text, or
another of the headers settles the matter. -/
theorem guard_exact_iff (headers : HeaderMap) : GuardExact headers ↔
    (declaresAwsChunked (contentEncoding headers) = true →
      firstLineAnnounces headers = true ∨ headers.containsKey X_AMZ_DECODED_CONTENT_LENGTH = true ∨
        decoded headers = true) := by
  constructor
  · rintro ⟨exact_, -⟩ announces
    rw [guard_eq_ok_iff, announces] at exact_
    by_contra hnone
    simp only [not_or, Bool.not_eq_true] at hnone
    rcases exact_.mp (.inl ⟨hnone.1, hnone.2.1⟩) with ⟨hf, -⟩ | hd
    · cases hf
    · rw [hnone.2.2] at hd
      cases hd
  · intro whole
    have passes : rejectContradictoryAwsChunked headers = .ok () ↔
        declaresAwsChunked (contentEncoding headers) = false ∧
          headers.containsKey X_AMZ_DECODED_CONTENT_LENGTH = false ∨ decoded headers = true := by
      rw [guard_eq_ok_iff]
      refine or_congr_left' fun hnot => and_congr_left fun hlen => ?_
      constructor
      · intro hfirst
        by_contra announces
        rcases whole (Bool.eq_true_of_not_eq_false announces) with h | h | h
        · rw [hfirst] at h
          cases h
        · rw [hlen] at h
          cases h
        · exact hnot h
      · intro hnone
        by_contra hfirst
        rw [announces_of_firstLine (Bool.eq_true_of_not_eq_false hfirst)] at hnone
        cases hnone
    refine ⟨passes, ?_⟩
    rintro C req rfl announces raw
    have refused : rejectContradictoryAwsChunked req.headers ≠ .ok () := by
      rw [Ne, passes, announces, raw]
      simp
    cases hguard : rejectContradictoryAwsChunked req.headers with
    | ok u => exact absurd hguard refused
    | error e =>
        refine ⟨e, ?_⟩
        rw [putObject, hguard]
        rfl

/-- A second `Content-Encoding` line that announces the framing of an undecoded body passes. -/
theorem guard_misses_second_line :
    ¬ GuardExact ⟨[(CONTENT_ENCODING, utf8 "gzip"), (CONTENT_ENCODING, utf8 "aws-chunked"),
      (X_AMZ_CONTENT_SHA256, utf8 "UNSIGNED-PAYLOAD")]⟩ := by
  rw [guard_exact_iff]
  decide

end Aks3.Api
