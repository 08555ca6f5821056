import Aks3.Api.Verified

/-!
# Every checksum a request supplies

A request can supply several checksums: one for each of five header fields, and one
for each trailer that it announces. `detect` picks one of them, so that the others are
not looked at; and it does not find an announced trailer whose name is not in lower
case or not in the first `x-amz-trailer` line, or if there is no handle to read it
from.

Which of them are looked at depends on the shape of the request alone: the fields that
are set, the headers, and the names of the trailing headers. `supplied_verified_iff`
says for which shapes a success means that all of them were right, whatever the values
and the body: for those with nothing to check beside the pick, and those whose pick is
an announced trailer that does not arrive, which are refused.
-/

set_option autoImplicit false

namespace Aks3.Api

open Lib Engine

/-- A checksum that comes with a request; without a value, an announced trailer that was
not received. -/
structure Supplied where
  algorithm : ChecksumAlgorithm
  value : Option Bytes
  deriving DecidableEq, Repr

/-- The value was received and is the base64 checksum of `bytes`. -/
def Supplied.Verified (H : Hashes) (bytes : Bytes) (s : Supplied) : Prop :=
  s.value = some (utf8 (s.algorithm.of H bytes).value)

/-- The trailer that carries a checksum. -/
def checksumTrailer (a : ChecksumAlgorithm) : Bytes :=
  CHECKSUM_TRAILER_LEAD ++ (utf8 a.asStr).map asciiLower

theorem checksumTrailer_inj {a b : ChecksumAlgorithm} (h : checksumTrailer a = checksumTrailer b) :
    a = b := by
  revert h
  cases a <;> cases b <;> decide

/-- Some line of `x-amz-trailer` names the trailer, in any case. -/
def announces (headers : HeaderMap) (a : ChecksumAlgorithm) : Bool :=
  (headers.getAll X_AMZ_TRAILER).any fun line => (line.splitOn 0x2C).any fun token =>
    eqIgnoreAsciiCase (trimAscii token) (checksumTrailer a)

/-- The values of a trailer that were received. -/
def received (trailing : Option (Option HeaderMap)) (a : ChecksumAlgorithm) : List Bytes :=
  match trailing with
  | some (some map) => map.getAll (checksumTrailer a)
  | _ => []

/-- The checksums in the header fields of a request. -/
def suppliedFields (input : PutObjectInput) : List Supplied :=
  (headerForm input).filterMap fun f => f.2.map fun v => ⟨f.1, some (utf8 v)⟩

/-- The checksums in the trailers it announces. -/
def suppliedTrailers (headers : HeaderMap) (trailing : Option (Option HeaderMap)) :
    List Supplied :=
  ([.crc32, .crc32c, .sha1, .sha256, .crc64Nvme].filter (announces headers)).flatMap fun a =>
    if received trailing a = [] then [⟨a, none⟩]
    else (received trailing a).map fun v => ⟨a, some v⟩

def supplied (req : S3Request PutObjectInput) : List Supplied :=
  suppliedFields req.input ++ suppliedTrailers req.headers req.trailingHeaders

/-! ## The shape of a request -/

/-- Everything about the checksums of a request but their values. -/
structure Shape where
  /-- The header fields that are set. -/
  fields : List ChecksumAlgorithm
  headers : HeaderMap
  /-- The names of the trailing headers, if there is a handle and they arrive. -/
  trailers : Option (Option (List Bytes))
  deriving DecidableEq, Repr

def S3Request.shape (req : S3Request PutObjectInput) : Shape where
  fields := (headerForm req.input).filterMap fun f => f.2.map fun _ => f.1
  headers := req.headers
  trailers := req.trailingHeaders.map fun handle => handle.map fun map => map.lines.map Prod.fst

/-- There is a value to read. -/
def Expected.arrives : Expected → Bool
  | .immediate _ => true
  | .trailer handle name => (handle.bind fun map => map.get name).isSome

/-- Nothing is supplied beside what `detect` picks, which is one of those supplied
(`picked_mem`). -/
def OnlyPick (req : S3Request PutObjectInput) : Prop :=
  (supplied req).length ≤ req.checksum.toList.length

/-- What `detect` picks is a trailer that does not arrive. -/
def PickMissing (req : S3Request PutObjectInput) : Prop :=
  ∃ c ∈ req.checksum, c.expected.arrives = false

instance decidableOnlyPick (req : S3Request PutObjectInput) : Decidable (OnlyPick req) :=
  inferInstanceAs (Decidable (_ ≤ _))

/-! ### What `detect` picks -/

/-- The algorithm and the name of the trailer that a token names. -/
def trailerName (token : Bytes) : Option (ChecksumAlgorithm × Bytes) :=
  (stripLead CHECKSUM_TRAILER_LEAD (trimAscii token)).bind fun algoName =>
    (ChecksumAlgorithm.fromName algoName).bind fun algorithm =>
      (headerName (trimAscii token)).map fun name => (algorithm, name)

/-- The first checksum trailer of the first `x-amz-trailer` line. -/
def firstTrailer (headers : HeaderMap) : Option (ChecksumAlgorithm × Bytes) :=
  ((headers.get X_AMZ_TRAILER).bind toStr).bind fun declared =>
    (declared.splitOn 0x2C).findSome? trailerName

theorem trailerOf_eq (handle : Option HeaderMap) :
    trailerOf handle =
      fun token => (trailerName token).map fun t => ⟨t.1, .trailer handle t.2⟩ := by
  funext token
  simp only [trailerOf, trailerName, Option.map_bind, Function.comp_def, Option.map_map]

theorem eqIgnoreAsciiCase_asStr {name : Bytes} {a : ChecksumAlgorithm}
    (h : ChecksumAlgorithm.fromName name = some a) : eqIgnoreAsciiCase name (utf8 a.asStr) := by
  unfold ChecksumAlgorithm.fromName at h
  split_ifs at h with h₁ h₂ h₃ h₄ h₅ <;> cases h <;> assumption

/-- A trailer that is found is that of its algorithm, and is announced. -/
theorem trailerName_spec {token name : Bytes} {a : ChecksumAlgorithm}
    (h : trailerName token = some (a, name)) :
    name = checksumTrailer a ∧ eqIgnoreAsciiCase (trimAscii token) (checksumTrailer a) := by
  obtain ⟨algoName, hstrip, h⟩ := Option.bind_eq_some_iff.mp h
  obtain ⟨a', hname, h⟩ := Option.bind_eq_some_iff.mp h
  obtain ⟨name', hheader, h⟩ := Option.map_eq_some_iff.mp h
  cases h
  have hlower : (trimAscii token).map asciiLower = checksumTrailer a := by
    unfold stripLead at hstrip
    split at hstrip
    · rename_i hlead
      cases hstrip
      obtain ⟨rest, hrest⟩ := hlead
      have hcase := eqIgnoreAsciiCase_asStr hname
      rw [← hrest, List.drop_left] at hcase
      rw [← hrest, List.map_append, of_decide_eq_true hcase, checksumTrailer]
      rfl
    · cases hstrip
  have hidem : (checksumTrailer a).map asciiLower = checksumTrailer a := by cases a <;> rfl
  unfold headerName at hheader
  split at hheader
  · cases hheader
    exact ⟨hlower, decide_eq_true (hlower.trans hidem.symm)⟩
  · cases hheader

theorem firstTrailer_spec {headers : HeaderMap} {t : ChecksumAlgorithm × Bytes}
    (h : firstTrailer headers = some t) :
    t.2 = checksumTrailer t.1 ∧ announces headers t.1 = true := by
  obtain ⟨declared, hline, h⟩ := Option.bind_eq_some_iff.mp h
  obtain ⟨line, hget, htext⟩ := Option.bind_eq_some_iff.mp hline
  obtain ⟨token, htoken, h⟩ := List.exists_of_findSome?_eq_some h
  have hfound : trailerName token = some (t.1, t.2) := h
  obtain ⟨hname, hcase⟩ := trailerName_spec hfound
  rw [toStr_eq_some htext] at htoken
  exact ⟨hname, List.any_eq_true.mpr ⟨line, HeaderMap.get_mem_getAll hget,
    List.any_eq_true.mpr ⟨token, htoken, hcase⟩⟩⟩

/-- The checksum in the first header field that is set. -/
def firstField (input : PutObjectInput) : Option PutChecksum :=
  (headerForm input).findSome? fun f => f.2.map fun value => ⟨f.1, .immediate value⟩

/-- The pick is in the first field that is set, or else the first trailer. -/
theorem checksum_eq (req : S3Request PutObjectInput) :
    req.checksum = (firstField req.input).or (req.trailingHeaders.bind fun handle =>
      (firstTrailer req.headers).map fun t => ⟨t.1, .trailer handle t.2⟩) := by
  have htrailer : ∀ handle : Option HeaderMap,
      (((req.headers.get X_AMZ_TRAILER).bind toStr).bind fun declared =>
        (declared.splitOn 0x2C).findSome? (trailerOf handle)) =
      (firstTrailer req.headers).map fun t => ⟨t.1, .trailer handle t.2⟩ := by
    intro handle
    simp only [firstTrailer, trailerOf_eq, Option.map_bind, Function.comp_def,
      List.map_findSome?]
  unfold S3Request.checksum detect firstField
  cases (headerForm req.input).findSome? fun f =>
      f.2.map fun value => (⟨f.1, .immediate value⟩ : PutChecksum) with
  | some c => rfl
  | none => simp only [Option.none_or, htrailer]

theorem firstField_spec {input : PutObjectInput} {c : PutChecksum}
    (h : firstField input = some c) :
    ∃ v, c.expected = .immediate v ∧ (c.algorithm, some v) ∈ headerForm input := by
  obtain ⟨f, hf, hv⟩ := List.exists_of_findSome?_eq_some h
  obtain ⟨v, hset, rfl⟩ := Option.map_eq_some_iff.mp hv
  exact ⟨v, rfl, hset ▸ hf⟩

theorem mem_suppliedTrailers {headers : HeaderMap} {trailing : Option (Option HeaderMap)}
    {s : Supplied} : s ∈ suppliedTrailers headers trailing ↔ announces headers s.algorithm ∧
      (received trailing s.algorithm = [] ∧ s.value = none ∨
        ∃ v ∈ received trailing s.algorithm, s.value = some v) := by
  obtain ⟨a, value⟩ := s
  have hall : ∀ a : ChecksumAlgorithm, a ∈ [.crc32, .crc32c, .sha1, .sha256, .crc64Nvme] := by
    intro a
    cases a <;> decide
  simp only [suppliedTrailers, List.mem_flatMap, List.mem_filter, hall, true_and]
  constructor
  · rintro ⟨b, hb, hs⟩
    split at hs
    · rename_i hnil
      cases List.mem_singleton.mp hs
      exact ⟨hb, .inl ⟨hnil, rfl⟩⟩
    · obtain ⟨v, hv, heq⟩ := List.mem_map.mp hs
      cases heq
      exact ⟨hb, .inr ⟨v, hv, rfl⟩⟩
  · rintro ⟨ha, ⟨hnil, rfl⟩ | ⟨v, hv, rfl⟩⟩
    · exact ⟨a, ha, by rw [if_pos hnil]; exact List.mem_singleton_self _⟩
    · refine ⟨a, ha, ?_⟩
      rw [if_neg (List.ne_nil_of_mem hv)]
      exact List.mem_map_of_mem hv

/-- What is picked is one of the checksums supplied, if it arrives. -/
theorem picked_mem {req : S3Request PutObjectInput} {c : PutChecksum} {v : String}
    (hc : req.checksum = some c) (hv : c.expected.resolve = some v) :
    ⟨c.algorithm, some (utf8 v)⟩ ∈ supplied req := by
  rw [checksum_eq] at hc
  cases hfield : firstField req.input with
  | some f =>
      rw [hfield, Option.some_or] at hc
      cases hc
      obtain ⟨value, himmediate, hmem⟩ := firstField_spec hfield
      rw [himmediate] at hv
      cases hv
      exact List.mem_append_left _ (List.mem_filterMap.mpr ⟨_, hmem, rfl⟩)
  | none =>
      rw [hfield, Option.none_or] at hc
      obtain ⟨handle, htrailing, hc⟩ := Option.bind_eq_some_iff.mp hc
      obtain ⟨t, ht, rfl⟩ := Option.map_eq_some_iff.mp hc
      obtain ⟨hname, hannounced⟩ := firstTrailer_spec ht
      obtain ⟨text, htext, hutf8⟩ := Option.bind_eq_some_iff.mp hv
      obtain ⟨value, hget, hstr⟩ := Option.bind_eq_some_iff.mp htext
      obtain ⟨map, rfl, hget⟩ := Option.bind_eq_some_iff.mp hget
      refine List.mem_append_right _ (mem_suppliedTrailers.mpr ⟨hannounced, .inr ⟨_, ?_, rfl⟩⟩)
      rw [fromUtf8_eq_some.mp hutf8, toStr_eq_some hstr, htrailing, received, ← hname]
      exact HeaderMap.get_mem_getAll hget

/-! ### What the shape determines -/

/-- How many values of a trailer are received. -/
def Shape.received (shape : Shape) (a : ChecksumAlgorithm) : Nat :=
  match shape.trailers with
  | some (some names) => names.count (checksumTrailer a)
  | _ => 0

/-- The algorithms of the checksums supplied. -/
def Shape.supplied (shape : Shape) : List ChecksumAlgorithm :=
  shape.fields ++ ([.crc32, .crc32c, .sha1, .sha256, .crc64Nvme].filter
    (announces shape.headers)).flatMap fun a => List.replicate (max 1 (shape.received a)) a

/-- The algorithm of the pick, and whether it arrives. -/
def Shape.pick (shape : Shape) : Option (ChecksumAlgorithm × Bool) :=
  (shape.fields.head?.map fun a => (a, true)).or (shape.trailers.bind fun names =>
    (firstTrailer shape.headers).map fun t => (t.1, names.any fun names => t.2 ∈ names))

theorem length_received (req : S3Request PutObjectInput) (a : ChecksumAlgorithm) :
    (received req.trailingHeaders a).length = req.shape.received a := by
  unfold Shape.received S3Request.shape
  match req.trailingHeaders with
  | none => rfl
  | some none => rfl
  | some (some map) => exact map.length_getAll _

theorem fields_eq (req : S3Request PutObjectInput) :
    (suppliedFields req.input).map Supplied.algorithm = req.shape.fields := by
  simp only [suppliedFields, List.map_filterMap, Option.map_map, Function.comp_def]
  rfl

theorem nodup_fields (req : S3Request PutObjectInput) : req.shape.fields.Nodup := by
  have hnames : ((headerForm req.input).map Prod.fst).Nodup := by
    change [ChecksumAlgorithm.crc32, .crc32c, .sha1, .sha256, .crc64Nvme].Nodup
    decide
  refine List.pairwise_filterMap.mpr ((List.pairwise_map.mp hnames).imp ?_)
  intro f g hne a ha b hb
  obtain ⟨-, -, rfl⟩ := Option.map_eq_some_iff.mp ha
  obtain ⟨-, -, rfl⟩ := Option.map_eq_some_iff.mp hb
  exact hne

theorem supplied_eq (req : S3Request PutObjectInput) :
    (supplied req).map Supplied.algorithm = req.shape.supplied := by
  rw [supplied, List.map_append, fields_eq, Shape.supplied, suppliedTrailers, List.map_flatMap]
  refine congrArg _ (congrArg (fun f => List.flatMap f _) (funext fun a => ?_))
  have hlen := length_received req a
  split
  · rename_i hnil
    rw [hnil] at hlen
    rw [← hlen]
    rfl
  · rename_i hne
    have hpos := List.length_pos_iff.mpr hne
    rw [List.map_map, max_eq_right (by omega), ← hlen]
    exact List.map_const' ..

theorem firstField_eq (req : S3Request PutObjectInput) :
    ((firstField req.input).map fun c => (c.algorithm, c.expected.arrives)) =
      req.shape.fields.head?.map fun a => (a, true) := by
  simp only [firstField, S3Request.shape, List.head?_filterMap, List.map_findSome?,
    Function.comp_def, Option.map_map]
  rfl

theorem pick_eq (req : S3Request PutObjectInput) :
    (req.checksum.map fun c => (c.algorithm, c.expected.arrives)) = req.shape.pick := by
  rw [checksum_eq, Shape.pick, Option.map_or, firstField_eq]
  refine congrArg _ ?_
  unfold S3Request.shape
  match req.trailingHeaders with
  | none => rfl
  | some none => simp [Expected.arrives, Function.comp_def]
  | some (some map) => simp [Expected.arrives, Function.comp_def, HeaderMap.isSome_get]

variable {env : Env OsName} {C : Crates} {X : Set (Path OsName)} {S : Store} {w : World OsName}
  {req req' : S3Request PutObjectInput}

theorem length_supplied_of_shape (h : req'.shape = req.shape) :
    (supplied req').length = (supplied req).length := by
  have := congrArg List.length ((supplied_eq req').trans (h ▸ (supplied_eq req).symm))
  simpa only [List.length_map] using this

theorem OnlyPick.of_shape (h : req'.shape = req.shape) (ho : OnlyPick req) : OnlyPick req' := by
  have hpick := congrArg (fun p => p.toList.length) ((pick_eq req').trans (h ▸ (pick_eq req).symm))
  simp only [Option.toList_map, List.length_map] at hpick
  unfold OnlyPick at ho ⊢
  rw [length_supplied_of_shape h, hpick]
  exact ho

theorem PickMissing.of_shape (h : req'.shape = req.shape) (hm : PickMissing req) :
    PickMissing req' := by
  obtain ⟨c, hc, harrives⟩ := hm
  have hpick : (c.algorithm, false) ∈
      req'.checksum.map fun c => (c.algorithm, c.expected.arrives) := by
    rw [pick_eq, h, ← pick_eq, ← harrives]
    exact Option.mem_map_of_mem _ hc
  obtain ⟨c', hc', heq⟩ := Option.mem_map.mp hpick
  exact ⟨c', hc', congrArg Prod.snd heq⟩

/-! ## Values that are not looked at -/

/-- Other values and another body in a request of the same shape. -/
def S3Request.withValues (req : S3Request PutObjectInput) (field : ChecksumAlgorithm → String)
    (lines : List (Bytes × Bytes) → List (Bytes × Bytes)) (body : Polls String) :
    S3Request PutObjectInput :=
  { req with
    input := { req.input with
      body := some body
      checksumCrc32 := req.input.checksumCrc32.map fun _ => field .crc32
      checksumCrc32c := req.input.checksumCrc32c.map fun _ => field .crc32c
      checksumSha1 := req.input.checksumSha1.map fun _ => field .sha1
      checksumSha256 := req.input.checksumSha256.map fun _ => field .sha256
      checksumCrc64nvme := req.input.checksumCrc64nvme.map fun _ => field .crc64Nvme }
    trailingHeaders := req.trailingHeaders.map fun handle => handle.map fun map =>
      ⟨lines map.lines⟩ }

/-- One value for all trailing headers. -/
def sameLines (value : Bytes) (lines : List (Bytes × Bytes)) : List (Bytes × Bytes) :=
  lines.map fun line => (line.1, value)

/-- One value for all trailing headers but the first of a name. -/
def firstLine (name first value : Bytes) : List (Bytes × Bytes) → List (Bytes × Bytes)
  | [] => []
  | line :: lines =>
    if line.1 = name then (line.1, first) :: sameLines value lines
    else (line.1, value) :: firstLine name first value lines

theorem map_fst_sameLines (value : Bytes) (lines : List (Bytes × Bytes)) :
    (sameLines value lines).map Prod.fst = lines.map Prod.fst := by
  rw [sameLines, List.map_map]
  rfl

theorem map_fst_firstLine (name first value : Bytes) (lines : List (Bytes × Bytes)) :
    (firstLine name first value lines).map Prod.fst = lines.map Prod.fst := by
  induction lines with
  | nil => rfl
  | cons line lines ih =>
      rw [firstLine]
      split
      · rw [List.map_cons, map_fst_sameLines, List.map_cons]
      · rw [List.map_cons, ih, List.map_cons]

theorem getAll_sameLines {value name v : Bytes} {lines : List (Bytes × Bytes)}
    (h : v ∈ HeaderMap.getAll ⟨sameLines value lines⟩ name) : v = value := by
  obtain ⟨line, hline, rfl⟩ := List.mem_map.mp h
  obtain ⟨l, -, rfl⟩ := List.mem_map.mp (List.mem_of_mem_filter hline)
  rfl

theorem getAll_firstLine_of_ne {name first value other v : Bytes} (hne : other ≠ name)
    {lines : List (Bytes × Bytes)}
    (h : v ∈ HeaderMap.getAll ⟨firstLine name first value lines⟩ other) : v = value := by
  induction lines with
  | nil => cases h
  | cons line lines ih =>
      rw [firstLine] at h
      split at h
      · rename_i hl
        rw [HeaderMap.getAll_cons, if_neg fun ho => hne (ho.symm.trans hl)] at h
        exact getAll_sameLines h
      · rw [HeaderMap.getAll_cons] at h
        split at h
        · exact (List.mem_cons.mp h).elim id ih
        · exact ih h

/-- The first of the name has its own value, and all others the common one. -/
theorem getAll_firstLine {name first value : Bytes} {lines : List (Bytes × Bytes)}
    (h : name ∈ lines.map Prod.fst) :
    HeaderMap.get ⟨firstLine name first value lines⟩ name = some first ∧
      ∃ rest, HeaderMap.getAll ⟨firstLine name first value lines⟩ name = first :: rest ∧
        ∀ v ∈ rest, v = value := by
  induction lines with
  | nil => cases h
  | cons line lines ih =>
      rw [firstLine]
      split
      · rename_i hl
        rw [HeaderMap.get_cons, HeaderMap.getAll_cons, if_pos hl, if_pos hl]
        exact ⟨rfl, _, rfl, fun v => getAll_sameLines⟩
      · rename_i hl
        rw [HeaderMap.get_cons, HeaderMap.getAll_cons, if_neg hl, if_neg hl]
        exact ih (List.mem_of_ne_of_mem (Ne.symm hl) h)

section WithValues

variable {field : ChecksumAlgorithm → String} {lines : List (Bytes × Bytes) → List (Bytes × Bytes)}
  {body : Polls String}

theorem headerForm_withValues : headerForm (req.withValues field lines body).input =
    (headerForm req.input).map fun f => (f.1, f.2.map fun _ => field f.1) := rfl

theorem shape_withValues (hlines : ∀ ls, (lines ls).map Prod.fst = ls.map Prod.fst) :
    (req.withValues field lines body).shape = req.shape := by
  have hfields : (req.withValues field lines body).shape.fields = req.shape.fields := by
    simp only [S3Request.shape, headerForm_withValues, List.filterMap_map, Function.comp_def,
      Option.map_map]
  have htrailers : (req.withValues field lines body).shape.trailers = req.shape.trailers := by
    simp only [S3Request.shape, S3Request.withValues, Option.map_map, Function.comp_def, hlines]
  exact congrArg₂ (fun f t => Shape.mk f req.headers t) hfields htrailers

theorem suppliedFields_withValues : suppliedFields (req.withValues field lines body).input =
    req.shape.fields.map fun a => ⟨a, some (utf8 (field a))⟩ := by
  simp only [suppliedFields, S3Request.shape, headerForm_withValues, List.filterMap_map,
    List.map_filterMap, Function.comp_def, Option.map_map]

theorem firstField_withValues : firstField (req.withValues field lines body).input =
    req.shape.fields.head?.map fun a => ⟨a, .immediate (field a)⟩ := by
  simp only [firstField, S3Request.shape, headerForm_withValues, List.findSome?_map,
    List.head?_filterMap, List.map_findSome?, Function.comp_def, Option.map_map]

theorem received_withValues {v : Bytes} {a : ChecksumAlgorithm}
    (h : v ∈ received (req.withValues field lines body).trailingHeaders a) :
    ∃ map : HeaderMap, req.trailingHeaders = some (some map) ∧
      v ∈ HeaderMap.getAll ⟨lines map.lines⟩ (checksumTrailer a) := by
  match htrailing : req.trailingHeaders with
  | none =>
      simp only [S3Request.withValues, htrailing, Option.map_none, received] at h
      cases h
  | some none =>
      simp only [S3Request.withValues, htrailing, Option.map_none, Option.map_some, received] at h
      cases h
  | some (some map) =>
      simp only [S3Request.withValues, htrailing, Option.map_some, received] at h
      exact ⟨map, rfl, h⟩

end WithValues

/-- An announced trailer none of whose values is right. -/
theorem wrong_of_announced {H : Hashes} {bytes : Bytes} {headers : HeaderMap}
    {trailing : Option (Option HeaderMap)} {a : ChecksumAlgorithm} (ha : announces headers a = true)
    (hwrong : ∀ v ∈ received trailing a, v ≠ utf8 (a.of H bytes).value) :
    ∃ s ∈ suppliedTrailers headers trailing, ¬ s.Verified H bytes := by
  cases hr : received trailing a with
  | nil => exact ⟨⟨a, none⟩, mem_suppliedTrailers.mpr ⟨ha, .inl ⟨hr, rfl⟩⟩, nofun⟩
  | cons v rest =>
      have hv : v ∈ received trailing a := hr ▸ List.mem_cons_self
      exact ⟨⟨a, some v⟩, mem_suppliedTrailers.mpr ⟨ha, .inr ⟨v, hv, rfl⟩⟩,
        fun hs => hwrong v hv (Option.some.inj hs)⟩

/-- There is a text that is no checksum of a body. -/
theorem exists_wrong (H : Hashes) (bytes : Bytes) :
    ∃ wrong : String, ∀ a : ChecksumAlgorithm, wrong ≠ (a.of H bytes).value := by
  let value (a : ChecksumAlgorithm) := (a.of H bytes).value
  refine ⟨value .crc32 ++ value .crc32c ++ value .sha1 ++ value .sha256 ++ value .crc64Nvme ++ "A",
    fun a h => ?_⟩
  have hlen := congrArg String.length h
  simp only [String.length_append] at hlen
  have hone : "A".length = 1 := rfl
  cases a <;> simp only [value] at hlen <;> omega

/-- There are values of the shape with which the pick is right and something else is not. -/
def Overlooks (H : Hashes) (req : S3Request PutObjectInput) (body : Polls String)
    (bytes : Bytes) : Prop :=
  ∃ field lines, (req.withValues field lines body).shape = req.shape ∧
    Passes H (req.withValues field lines body).checksum bytes ∧
    ∃ s ∈ supplied (req.withValues field lines body), ¬ s.Verified H bytes

section Overlooked

variable {H : Hashes} {bytes : Bytes} {wrong : String} {body : Polls String}
  {field : ChecksumAlgorithm → String} {lines : List (Bytes × Bytes) → List (Bytes × Bytes)}

/-- With no right value in a trailer, any trailer that is announced will do. -/
theorem wrong_of_sameLines
    (hwrong : ∀ a : ChecksumAlgorithm, utf8 wrong ≠ utf8 (a.of H bytes).value)
    (hsome : suppliedTrailers req.headers
      (req.withValues field (sameLines (utf8 wrong)) body).trailingHeaders ≠ []) :
    ∃ s ∈ supplied (req.withValues field (sameLines (utf8 wrong)) body), ¬ s.Verified H bytes := by
  obtain ⟨s, hs⟩ := List.exists_mem_of_ne_nil _ hsome
  obtain ⟨s', hs', hno⟩ := wrong_of_announced (mem_suppliedTrailers.mp hs).1 fun v hv => by
    obtain ⟨map, -, hmem⟩ := received_withValues hv
    rw [getAll_sameLines hmem]
    exact hwrong _
  exact ⟨s', List.mem_append_right _ hs', hno⟩

/-- What is supplied beside the pick is so with any values. -/
theorem lt_length_withValues (honly : ¬ OnlyPick req)
    (hshape : (req.withValues field lines body).shape = req.shape) :
    req.checksum.toList.length < req.shape.fields.length + (suppliedTrailers req.headers
      (req.withValues field lines body).trailingHeaders).length := by
  have hsupplied := length_supplied_of_shape hshape
  rw [supplied, List.length_append, suppliedFields_withValues, List.length_map] at hsupplied
  exact (Nat.lt_of_not_le honly).trans_eq hsupplied.symm

/-- The pick is in a field: it gets the right value, and everything else the wrong one. -/
theorem overlooked_field
    (hwrong : ∀ a : ChecksumAlgorithm, utf8 wrong ≠ utf8 (a.of H bytes).value)
    (honly : ¬ OnlyPick req) {a : ChecksumAlgorithm} {rest : List ChecksumAlgorithm}
    (hfields : req.shape.fields = a :: rest) (body : Polls String) :
    Overlooks H req body bytes := by
  let field := fun b : ChecksumAlgorithm => if b = a then (a.of H bytes).value else wrong
  have hshape : (req.withValues field (sameLines (utf8 wrong)) body).shape = req.shape :=
    shape_withValues (map_fst_sameLines _)
  refine ⟨field, sameLines (utf8 wrong), hshape, ?_, ?_⟩
  · intro c hc
    rw [checksum_eq, firstField_withValues, hfields] at hc
    cases hc
    exact congrArg some (if_pos rfl)
  cases rest with
  | nil =>
      refine wrong_of_sameLines hwrong fun hnil => ?_
      have hpick : req.checksum.toList.length = 1 := by
        have hone := congrArg (fun p => p.toList.length) (pick_eq req)
        simpa [Shape.pick, hfields] using hone
      have hlt := lt_length_withValues honly hshape
      rw [hfields, hnil, hpick] at hlt
      exact absurd hlt (Nat.lt_irrefl 1)
  | cons b rest =>
      have hnodup : (a :: b :: rest).Nodup := hfields ▸ nodup_fields req
      have hba : b ≠ a := fun h => (List.nodup_cons.mp hnodup).1 (h ▸ List.mem_cons_self)
      have hfield : field b = wrong := if_neg hba
      refine ⟨⟨b, some (utf8 (field b))⟩, List.mem_append_left _ ?_, fun hv => ?_⟩
      · rw [suppliedFields_withValues, hfields]
        exact List.mem_map_of_mem (List.mem_cons_of_mem _ List.mem_cons_self)
      · rw [Supplied.Verified, hfield] at hv
        exact hwrong b (Option.some.inj hv)

/-- Nothing is picked: everything gets the wrong value. -/
theorem overlooked_none
    (hwrong : ∀ a : ChecksumAlgorithm, utf8 wrong ≠ utf8 (a.of H bytes).value)
    (honly : ¬ OnlyPick req) (hfields : req.shape.fields = []) (hpick : req.checksum = none)
    (body : Polls String) :
    Overlooks H req body bytes := by
  have hshape : (req.withValues (fun _ => wrong) (sameLines (utf8 wrong)) body).shape = req.shape :=
    shape_withValues (map_fst_sameLines _)
  refine ⟨_, _, hshape, ?_, wrong_of_sameLines hwrong fun hnil => ?_⟩
  · intro c hc
    have hsame := pick_eq (req.withValues (fun _ => wrong) (sameLines (utf8 wrong)) body)
    rw [hshape, ← pick_eq, hpick, hc] at hsame
    cases hsame
  · have hlt := lt_length_withValues honly hshape
    rw [hfields, hnil] at hlt
    exact absurd hlt (Nat.not_lt_zero _)

theorem toStr_value (hbase64 : ∀ bs, (toStr (utf8 (H.base64 bs))).isSome)
    {a : ChecksumAlgorithm} :
    toStr (utf8 (a.of H bytes).value) = some (utf8 (a.of H bytes).value) := by
  obtain ⟨bs, hbs⟩ : ∃ bs, (a.of H bytes).value = H.base64 bs := by
    cases a <;> exact ⟨_, rfl⟩
  obtain ⟨text, htext⟩ := Option.isSome_iff_exists.mp (hbase64 bs)
  rw [hbs, htext, toStr_eq_some htext]

/-- Two values come with an announced trailer, or two trailers are announced. -/
theorem two_trailers {headers : HeaderMap} {trailing : Option (Option HeaderMap)}
    {a : ChecksumAlgorithm} (ha : announces headers a = true)
    (hlen : 1 < (suppliedTrailers headers trailing).length) :
    (∃ b, announces headers b = true ∧ b ≠ a) ∨ 1 < (received trailing a).length := by
  by_cases hother : ∃ b, announces headers b = true ∧ b ≠ a
  · exact .inl hother
  right
  have honly : [.crc32, .crc32c, .sha1, .sha256, .crc64Nvme].filter (announces headers) = [a] := by
    have hann : ∀ b, announces headers b = decide (b = a) := by
      intro b
      rw [Bool.eq_iff_iff, decide_eq_true_eq]
      exact ⟨fun hb => not_not.mp fun hne => hother ⟨b, hb, hne⟩, fun hb => hb ▸ ha⟩
    rw [funext hann]
    cases a <;> rfl
  rw [suppliedTrailers, honly, List.flatMap_singleton] at hlen
  split at hlen
  · exact absurd hlen (by simp)
  · rwa [List.length_map] at hlen

/-- The first value of a trailer is right; another trailer, or another value of it, is not. -/
theorem wrong_of_firstLine
    (hwrong : ∀ a : ChecksumAlgorithm, utf8 wrong ≠ utf8 (a.of H bytes).value)
    {headers : HeaderMap} {a : ChecksumAlgorithm} (ha : announces headers a = true)
    {lines : List (Bytes × Bytes)} (hname : checksumTrailer a ∈ lines.map Prod.fst)
    {first : Bytes} (hlen : 1 < (suppliedTrailers headers
      (some (some ⟨firstLine (checksumTrailer a) first (utf8 wrong) lines⟩))).length) :
    ∃ s ∈ suppliedTrailers headers
      (some (some ⟨firstLine (checksumTrailer a) first (utf8 wrong) lines⟩)),
      ¬ s.Verified H bytes := by
  rcases two_trailers ha hlen with ⟨b, hb, hba⟩ | htwo
  · refine wrong_of_announced hb fun v hv => ?_
    rw [getAll_firstLine_of_ne (fun h => hba (checksumTrailer_inj h)) hv]
    exact hwrong b
  · obtain ⟨rest, hall, hrest⟩ : ∃ rest, HeaderMap.getAll
        ⟨firstLine (checksumTrailer a) first (utf8 wrong) lines⟩ (checksumTrailer a) =
          first :: rest ∧ ∀ v ∈ rest, v = utf8 wrong := (getAll_firstLine hname).2
    rw [received, hall] at htwo
    obtain ⟨v, hv⟩ := List.exists_mem_of_length_pos (Nat.lt_of_succ_lt_succ htwo)
    refine ⟨⟨a, some v⟩, mem_suppliedTrailers.mpr ⟨ha, .inr ⟨v, ?_, rfl⟩⟩, fun hs => ?_⟩
    · rw [received, hall]
      exact List.mem_cons_of_mem _ hv
    · rw [Supplied.Verified, hrest v hv] at hs
      exact hwrong a (Option.some.inj hs)

/-- The pick is a trailer: its first value is right, and everything else is wrong. -/
theorem overlooked_trailer (hbase64 : ∀ bs, (toStr (utf8 (H.base64 bs))).isSome)
    (hwrong : ∀ a : ChecksumAlgorithm, utf8 wrong ≠ utf8 (a.of H bytes).value)
    (honly : ¬ OnlyPick req) (hfields : req.shape.fields = []) {c : PutChecksum}
    (hpick : req.checksum = some c) (harrives : c.expected.arrives = true) (body : Polls String) :
    Overlooks H req body bytes := by
  have hnofield : firstField req.input = none := by
    have hhead := firstField_eq req
    rw [hfields] at hhead
    exact Option.map_eq_none_iff.mp hhead
  have hsome := hpick
  rw [checksum_eq, hnofield, Option.none_or] at hsome
  obtain ⟨handle, htrailing, hsome⟩ := Option.bind_eq_some_iff.mp hsome
  obtain ⟨⟨a, name⟩, ht, rfl⟩ := Option.map_eq_some_iff.mp hsome
  obtain ⟨rfl, hannounced⟩ : name = checksumTrailer a ∧ _ := firstTrailer_spec ht
  obtain ⟨value, hvalue⟩ := Option.isSome_iff_exists.mp harrives
  obtain ⟨map, rfl, hget⟩ := Option.bind_eq_some_iff.mp hvalue
  have hname : checksumTrailer a ∈ map.lines.map Prod.fst := by
    have hisSome := map.isSome_get (checksumTrailer a)
    rw [hget] at hisSome
    exact of_decide_eq_true hisSome.symm
  let lines := firstLine (checksumTrailer a) (utf8 (a.of H bytes).value) (utf8 wrong)
  have hfirst : HeaderMap.get ⟨lines map.lines⟩ (checksumTrailer a) =
      some (utf8 (a.of H bytes).value) := (getAll_firstLine hname).1
  have hshape : (req.withValues (fun _ => wrong) lines body).shape = req.shape :=
    shape_withValues (map_fst_firstLine _ _ _)
  have htrailing' : (req.withValues (fun _ => wrong) lines body).trailingHeaders =
      some (some ⟨lines map.lines⟩) := by
    simp only [S3Request.withValues, htrailing, Option.map_some]
  refine ⟨fun _ => wrong, lines, hshape, ?_, ?_⟩
  · intro c hc
    have hheaders : (req.withValues (fun _ => wrong) lines body).headers = req.headers := rfl
    rw [checksum_eq, firstField_withValues, hfields, htrailing', hheaders, ht] at hc
    cases hc
    simp only [Expected.resolve, Option.bind_some, hfirst, toStr_value hbase64, fromUtf8_utf8]
  · have hlt := lt_length_withValues honly hshape
    rw [hfields, hpick, htrailing', List.length_nil, Nat.zero_add] at hlt
    obtain ⟨s, hs, hno⟩ := wrong_of_firstLine hwrong hannounced hname hlt
    refine ⟨s, List.mem_append_right _ ?_, hno⟩
    rw [htrailing']
    exact hs

end Overlooked

/-- If something is supplied beside the pick, and the pick arrives, then it can be wrong,
whatever the body. -/
theorem overlooked {H : Hashes} (hbase64 : ∀ bs, (toStr (utf8 (H.base64 bs))).isSome)
    (honly : ¬ OnlyPick req) (hmissing : ¬ PickMissing req) (body : Polls String)
    (bytes : Bytes) : Overlooks H req body bytes := by
  obtain ⟨wrong, hwrong⟩ := exists_wrong H bytes
  have hne : ∀ a : ChecksumAlgorithm, utf8 wrong ≠ utf8 (a.of H bytes).value :=
    fun a h => hwrong a (utf8_inj.mp h)
  cases hfields : req.shape.fields with
  | cons a rest => exact overlooked_field hne honly hfields body
  | nil =>
      cases hpick : req.checksum with
      | none => exact overlooked_none hne honly hfields hpick body
      | some c =>
          have harrives : c.expected.arrives = true := by
            by_contra hno
            exact hmissing ⟨c, hpick, Bool.eq_false_of_not_eq_true hno⟩
          exact overlooked_trailer hbase64 hne honly hfields hpick harrives body

/-! ## Which requests have all their checksums verified -/

/-- After a success, every checksum that came with the request is that of the stored
bytes. -/
def AllVerified (env : Env OsName) (C : Crates) (w : World OsName)
    (req : S3Request PutObjectInput) : Prop :=
  ∀ out w', runAlone env (putObject C req).run w = (.ok out, w') →
    ∃ bytes, w'.tree.fileAt (dataPath (objectDir (bucketDir req.input.bucket) req.input.key)
        NULL_VERSION_ID) = some bytes ∧
      ∀ s ∈ supplied req, s.Verified C.toHashes bytes

/-- It is that of the body of an accepted request. -/
theorem allVerified_iff (hown : OwnNames env) (h : Rep C env.fits X S w.tree) :
    AllVerified env C w req ↔ ∀ bytes, Accepted env C.toHashes S req bytes →
      ∀ s ∈ supplied req, s.Verified C.toHashes bytes := by
  have hstored : ∀ {bytes}, Accepted env C.toHashes S req bytes → ∃ out w',
      runAlone env (putObject C req).run w = (.ok out, w') ∧
        w'.tree.fileAt (dataPath (objectDir (bucketDir req.input.bucket) req.input.key)
          NULL_VERSION_ID) = some bytes := by
    intro bytes ha
    obtain ⟨S', w', hrun, hrep, ho⟩ := putObject_accepted hown h ha
    exact ⟨_, w', hrun, (hrep.data _ _).trans (by rw [ho]; rfl)⟩
  constructor
  · intro hall bytes ha
    obtain ⟨out, w', hrun, hdata⟩ := hstored ha
    obtain ⟨bytes', hdata', hver⟩ := hall out w' hrun
    rw [hdata] at hdata'
    cases hdata'
    exact hver
  · intro hall out w' hrun
    obtain ⟨bytes, ha⟩ := (putObject_ok_iff hown h).mp ⟨out, w', hrun⟩
    obtain ⟨out', w₁, hrun', hdata⟩ := hstored ha
    rw [hrun'] at hrun
    cases hrun
    exact ⟨bytes, hdata, hall bytes ha⟩

/-- If nothing else is supplied, an accepted request has the right checksum. -/
theorem verified_of_onlyPick {H : Hashes} {bytes : Bytes} (hp : Passes H req.checksum bytes)
    (ho : OnlyPick req) {s : Supplied} (hs : s ∈ supplied req) : s.Verified H bytes := by
  cases hc : req.checksum with
  | none =>
      unfold OnlyPick at ho
      rw [hc] at ho
      exact absurd (List.length_pos_of_mem hs) (Nat.not_lt.mpr ho)
  | some c =>
      have hmem := picked_mem hc (hp c hc)
      unfold OnlyPick at ho
      rw [hc] at ho
      obtain ⟨s', hlist⟩ := List.length_eq_one_iff.mp (le_antisymm ho (List.length_pos_of_mem hs))
      rw [hlist, List.mem_singleton] at hs hmem
      rw [hs, ← hmem]
      rfl

/-- A trailer that does not arrive is not passed over. -/
theorem arrives_of_passes {H : Hashes} {bytes : Bytes} (hp : Passes H req.checksum bytes) :
    ¬ PickMissing req := by
  rintro ⟨c, hc, hno⟩
  have hresolve := hp c hc
  cases hx : c.expected with
  | immediate v =>
      rw [hx] at hno
      cases hno
  | trailer handle name =>
      rw [hx] at hno hresolve
      obtain ⟨text, htext, -⟩ := Option.bind_eq_some_iff.mp hresolve
      obtain ⟨value, hget, -⟩ := Option.bind_eq_some_iff.mp htext
      rw [Expected.arrives, hget] at hno
      cases hno

/-- **Which requests have all their checksums verified,** whatever the values and the
body: those of a shape that has nothing supplied beside what `detect` picks, or whose
pick is an announced trailer that does not arrive, so that they are all refused. -/
theorem supplied_verified_iff (hown : OwnNames env)
    (hbase64 : ∀ bs, (toStr (utf8 (C.base64 bs))).isSome) (h : Rep C env.fits X S w.tree)
    (hframe : rejectContradictoryAwsChunked req.headers = .ok ())
    (hbucket : isValidBucketName req.input.bucket = true ∧ req.input.bucket ∈ S)
    (hkey : Fit env.fits (keyToRelPath req.input.key)) :
    (∀ req' : S3Request PutObjectInput, req'.shape = req.shape → AllVerified env C w req') ↔
      OnlyPick req ∨ PickMissing req := by
  constructor
  · intro hall
    by_contra hno
    obtain ⟨honly, hmissing⟩ := not_or.mp hno
    obtain ⟨field, lines, hshape, hp, s, hs, hwrong⟩ :=
      overlooked (H := C.toHashes) hbase64 honly hmissing [] []
    have ha : Accepted env C.toHashes S (req.withValues field lines []) [] :=
      { reaches := ⟨[], ⟨hframe, rfl, hbucket⟩, [], rfl, rfl⟩, passes := hp, key := hkey }
    exact hwrong ((allVerified_iff hown h).mp (hall _ hshape) [] ha s hs)
  · intro hcond req' hshape
    refine (allVerified_iff hown h).mpr fun bytes ha s hs => ?_
    rcases hcond with honly | hmissing
    · exact verified_of_onlyPick ha.passes (honly.of_shape hshape) hs
    · exact absurd (hmissing.of_shape hshape) (arrives_of_passes ha.passes)

/-! ## Requests with a checksum that is not looked at -/

/-- A right CRC-32 and a wrong CRC-32C. -/
def twoFields : S3Request PutObjectInput :=
  uploadA (some "6Le+Qw==") (some "AAAAAA==") ⟨[]⟩ none

/-- A trailer announced in the case HTTP libraries write, with a wrong value. -/
def capitalisedTrailer : S3Request PutObjectInput :=
  uploadA none none
    ⟨[(X_AMZ_CONTENT_SHA256, utf8 "STREAMING-UNSIGNED-PAYLOAD-TRAILER"),
      (X_AMZ_TRAILER, utf8 "X-Amz-Checksum-Crc32")]⟩
    (some (some ⟨[(utf8 "x-amz-checksum-crc32", utf8 "AAAAAA==")]⟩))

/-- A trailer announced in the second line of two, and never sent. -/
def secondLine : S3Request PutObjectInput :=
  uploadA none none
    ⟨[(X_AMZ_CONTENT_SHA256, utf8 "STREAMING-AWS4-HMAC-SHA256-PAYLOAD"),
      (X_AMZ_TRAILER, utf8 "x-amz-meta-note"), (X_AMZ_TRAILER, utf8 "x-amz-checksum-crc32")]⟩
    (some (some ⟨[]⟩))

/-- All three are stored. -/
theorem stored_unverified :
    ¬ AllVerified sampleEnv checkedCrates bucketWorld twoFields ∧
    ¬ AllVerified sampleEnv checkedCrates bucketWorld capitalisedTrailer ∧
    ¬ AllVerified sampleEnv checkedCrates bucketWorld secondLine := by
  obtain ⟨S, h, hS⟩ := bucketWorld_rep
  have hwrong : ∀ {req : S3Request PutObjectInput} (s : Supplied), s ∈ supplied req →
      Accepted sampleEnv checkedCrates.toHashes S req (utf8 "a") →
      ¬ s.Verified checkedCrates.toHashes (utf8 "a") →
      ¬ AllVerified sampleEnv checkedCrates bucketWorld req := fun s hs ha hno hall =>
    hno ((allVerified_iff (.of_all fun _ => rfl) h).mp hall _ ha s hs)
  have hcrc : Passes checkedCrates.toHashes twoFields.checksum (utf8 "a") := by
    rintro c hc
    cases hc
    decide
  have hnone : ∀ {x : Option PutChecksum}, x = none →
      Passes checkedCrates.toHashes x (utf8 "a") := by
    rintro x rfl c hc
    cases hc
  refine ⟨hwrong ⟨.crc32c, some (utf8 "AAAAAA==")⟩ (by decide)
      (uploadA_accepted hS _ _ _ _ (by decide) hcrc) (by unfold Supplied.Verified; decide),
    hwrong ⟨.crc32, some (utf8 "AAAAAA==")⟩ (by decide)
      (uploadA_accepted hS _ _ _ _ (by decide) (hnone (by decide)))
      (by unfold Supplied.Verified; decide),
    hwrong ⟨.crc32, none⟩ (by decide)
      (uploadA_accepted hS _ _ _ _ (by decide) (hnone (by decide)))
      (by unfold Supplied.Verified; decide)⟩

/-- One checksum, in a header field, is verified whether it is right or wrong. -/
theorem supplied_verified_crc32 :
    AllVerified sampleEnv checkedCrates bucketWorld (uploadA (some "6Le+Qw==") none ⟨[]⟩ none) ∧
    AllVerified sampleEnv checkedCrates bucketWorld (uploadA (some "AAAAAA==") none ⟨[]⟩ none) := by
  obtain ⟨S, h, hS⟩ := bucketWorld_rep
  have hbase64 : ∀ bs, (toStr (utf8 (checkedCrates.base64 bs))).isSome := by
    intro bs
    simp only [checkedCrates]
    split
    · rfl
    · split <;> rfl
  have honly : OnlyPick (uploadA (some "6Le+Qw==") none ⟨[]⟩ none) := by decide
  have hall := (supplied_verified_iff (.of_all fun _ => rfl) hbase64 h (by decide)
    ⟨(by decide : isValidBucketName "abc" = true), hS⟩ fun _ _ => rfl).mpr (.inl honly)
  exact ⟨hall _ rfl, hall _ rfl⟩

end Aks3.Api
