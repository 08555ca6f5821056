import Aks3.Engine.FsEngine

/-!
# Names that reach the filesystem

Two texts of a client become names in the data directory as they are: a bucket name, once
`is_valid_bucket_name` accepted it, and a version id, inside the name of a data file.

A data file name is read back by the decoder of key components (`decodeBytes_escapedId`), so
different ids name different files (`dataFileName_injective`); its bytes are few and harmless.

The bucket rule never splits a name into labels: it forbids three pairs of neighbouring bytes and
looks at both ends. `isValidBucketName_iff` says which grammar that is, label by label.
-/

set_option autoImplicit false

namespace Aks3.Engine

open Lib

/-! ## Data files -/

/-- Whether a version id is well-formed. -/
def isValidVersionId (versionId : String) : Bool :=
  !containsStr versionId ".." &&
    (utf8 versionId).any (fun b =>
      (0x30 ≤ b && b ≤ 0x39) || (0x41 ≤ b && b ≤ 0x5A) || (0x61 ≤ b && b ≤ 0x7A)) &&
    (utf8 versionId).all isSafeVersionByte

/-- The bytes a data file name is made of: `[A-Za-z0-9._%-]`. -/
def isNameByte (b : UInt8) : Bool := isSafeVersionByte b || b = 0x25

/-- The characters of one byte of a version id. -/
def escapedByte (b : UInt8) : List Char :=
  if isSafeVersionByte b then [Char.ofNat b.toNat] else pushEscape b

/-- The bytes of a version id, as they stand in a file name. -/
def escapedId (bs : Bytes) : Bytes := (bs.flatMap escapedByte).flatMap String.utf8EncodeChar

theorem utf8_dataFileName (v : String) :
    utf8 (dataFileName v) = utf8 "__aks3.v." ++ escapedId (utf8 v) ++ utf8 ".data" := by
  have chars : dataFileName v =
      String.ofList ("__aks3.v.".toList ++ (utf8 v).flatMap escapedByte ++ ".data".toList) := rfl
  rw [chars, utf8_ofList, List.flatMap_append, List.flatMap_append, utf8_eq_flatMap "__aks3.v.",
    utf8_eq_flatMap ".data", escapedId]

theorem escapedId_cons (b : UInt8) (bs : Bytes) :
    escapedId (b :: bs) = (escapedByte b).flatMap String.utf8EncodeChar ++ escapedId bs := by
  rw [escapedId, List.flatMap_cons, List.flatMap_append]
  rfl

/-- A safe byte is the character that stands for it, and not the one that starts an escape. -/
theorem escapedByte_safe : ∀ b : UInt8, isSafeVersionByte b = true →
    (escapedByte b).flatMap String.utf8EncodeChar = [b] ∧ b ≠ 0x25 := by
  apply forall_uint8
  decide +kernel

theorem nameByte_escapedByte : ∀ b : UInt8,
    ∀ x ∈ (escapedByte b).flatMap String.utf8EncodeChar, isNameByte x = true := by
  intro b x hx
  have digits : (('%' :: HEX).all fun c => isAscii c && isNameByte c.toNat.toUInt8) = true := by
    decide
  by_cases safe : isSafeVersionByte b = true
  · rw [(escapedByte_safe b safe).1, List.mem_singleton] at hx
    rw [hx, isNameByte, safe, Bool.true_or]
  · have escape : escapedByte b = pushEscape b := if_neg safe
    rw [escape] at hx
    obtain ⟨c, hc, hx⟩ := List.mem_flatMap.mp hx
    obtain ⟨ascii, name⟩ := Bool.and_eq_true_iff.mp
      (List.all_eq_true.mp digits c (mem_of_mem_pushEscape hc))
    rw [utf8EncodeChar_ascii ascii, List.mem_singleton] at hx
    rw [hx, name]

/-- **The decoder reads the version id back.** -/
theorem decodeBytes_escapedId (rest : Bytes) : ∀ bs : Bytes,
    decodeBytes (escapedId bs ++ rest) = (decodeBytes rest).map (bs ++ ·)
  | [] => by
      change decodeBytes rest = _
      cases decodeBytes rest <;> rfl
  | b :: bs => by
      rw [escapedId_cons, List.append_assoc]
      have tail := decodeBytes_escapedId rest bs
      by_cases safe : isSafeVersionByte b = true
      · obtain ⟨bytes, plain⟩ := escapedByte_safe b safe
        have only : ∀ x ∈ [b], x ≠ 0x25 := by
          intro x hx
          rwa [List.mem_singleton.mp hx]
        rw [bytes, decodeBytes_plain only, tail]
        cases decodeBytes rest <;> rfl
      · have escape : escapedByte b = pushEscape b := if_neg safe
        rw [escape, decodeBytes_escape, tail]
        cases decodeBytes rest <;> rfl

theorem dataFileName_injective : Function.Injective dataFileName := by
  intro v v' h
  have bytes : escapedId (utf8 v) = escapedId (utf8 v') := by
    have same := congrArg utf8 h
    rw [utf8_dataFileName, utf8_dataFileName] at same
    exact List.append_cancel_left (List.append_cancel_right same)
  have back : ∀ u : String, decodeBytes (escapedId (utf8 u)) = .ok (utf8 u) := by
    intro u
    have read := decodeBytes_escapedId [] (utf8 u)
    rwa [List.append_nil, decodeBytes, Except.map, List.append_nil] at read
  have decoded := back v
  rw [bytes, back v'] at decoded
  exact (utf8_inj.mp (Except.ok.inj decoded)).symm

theorem nameByte_dataFileName (v : String) : ∀ x ∈ utf8 (dataFileName v), isNameByte x = true := by
  rw [utf8_dataFileName]
  intro x hx
  rcases List.mem_append.mp hx with hx | hx
  · rcases List.mem_append.mp hx with hx | hx
    · exact List.all_eq_true.mp (by decide : (utf8 "__aks3.v.").all isNameByte = true) x hx
    · obtain ⟨c, hc, hx⟩ := List.mem_flatMap.mp hx
      obtain ⟨b, -, hb⟩ := List.mem_flatMap.mp hc
      exact nameByte_escapedByte b x (List.mem_flatMap.mpr ⟨c, hb, hx⟩)
  · exact List.all_eq_true.mp (by decide : (utf8 ".data").all isNameByte = true) x hx

/-- An id of safe bytes stands in the name as it is. -/
theorem dataFileName_of_safe {v : String} (h : ∀ b ∈ utf8 v, isSafeVersionByte b = true) :
    dataFileName v = "__aks3.v." ++ v ++ ".data" := by
  have plain : ∀ bs : Bytes, (∀ b ∈ bs, isSafeVersionByte b = true) → escapedId bs = bs := by
    intro bs
    induction bs with
    | nil => exact fun _ => rfl
    | cons b bs ih =>
        intro hbs
        rw [escapedId_cons, (escapedByte_safe b (hbs b (by simp))).1,
          ih fun x hx => hbs x (by simp [hx])]
        rfl
  apply utf8_inj.mp
  rw [utf8_dataFileName, plain _ h, utf8_append, utf8_append]

/-- A file name that is one component of a path and no other: not empty, neither `.` nor `..`,
without a separator, an escape for one, or a control byte. -/
structure OneComponent (n : OsName) : Prop where
  nonempty : n ≠ []
  notDot : n ≠ utf8 "." ∧ n ≠ utf8 ".."
  noSlash : 0x2F ∉ n
  noBackslash : 0x5C ∉ n
  noControl : ∀ b ∈ n, 0x20 ≤ b ∧ b ≠ 0x7F

theorem nameByte_harmless : ∀ b : UInt8, isNameByte b = true →
    b ≠ 0x2F ∧ b ≠ 0x5C ∧ 0x20 ≤ b ∧ b ≠ 0x7F := by
  apply forall_uint8
  decide +kernel

/-- Harmless bytes make one component, unless they are one of the two special names. -/
theorem oneComponent_of_nameBytes {n : OsName} (hne : n ≠ []) (hdot : n ≠ utf8 "." ∧ n ≠ utf8 "..")
    (h : ∀ b ∈ n, isNameByte b = true) : OneComponent n where
  nonempty := hne
  notDot := hdot
  noSlash hm := (nameByte_harmless _ (h _ hm)).1 rfl
  noBackslash hm := (nameByte_harmless _ (h _ hm)).2.1 rfl
  noControl b hb := (nameByte_harmless b (h b hb)).2.2

/-- **Data file names are safe and injective.** -/
theorem dataFileName_safe (v : String) :
    OneComponent (utf8 (dataFileName v)) ∧
      (∀ b ∈ utf8 (dataFileName v), isNameByte b = true) ∧
      Reserved (dataFileName v) ∧ dataFileName v ≠ META_FILE ∧
      (∀ c : String, dataFileName v ≠ encodeComponent c) ∧
      (∀ v', v ≠ v' → dataFileName v ≠ dataFileName v') ∧
      (isValidVersionId v = true → dataFileName v = "__aks3.v." ++ v ++ ".data") := by
  have lead : utf8 (dataFileName v) = utf8 "__aks3.v." ++ (escapedId (utf8 v) ++ utf8 ".data") := by
    rw [utf8_dataFileName, List.append_assoc]
  have differs : ∀ n : Bytes, n.take 9 ≠ utf8 "__aks3.v." → utf8 (dataFileName v) ≠ n := by
    rintro n hn rfl
    apply hn
    rw [lead]
    exact List.take_left' (by decide)
  refine ⟨oneComponent_of_nameBytes ?_ ?_ (nameByte_dataFileName v), nameByte_dataFileName v,
    reserved_dataFileName v, ?_, ?_, ?_, ?_⟩
  · exact differs _ (by decide)
  · exact ⟨differs _ (by decide), differs _ (by decide)⟩
  · intro he
    exact differs (utf8 META_FILE) (by decide) (congrArg utf8 he)
  · intro c he
    exact encodeComponent_ne_of_reserved (reserved_dataFileName v) (congrArg utf8 he.symm)
  · exact fun v' hne he => hne (dataFileName_injective he)
  · intro hv
    rw [isValidVersionId, Bool.and_eq_true] at hv
    exact dataFileName_of_safe (List.all_eq_true.mp hv.2)

/-! ## Bucket names -/

/-- One label: `[a-z0-9]([a-z0-9-]*[a-z0-9])?`. -/
def IsLabel (l : Bytes) : Prop :=
  ∃ a, isBucketAlnum a = true ∧ (l = [a] ∨ ∃ mid z, l = a :: (mid ++ [z]) ∧ isBucketAlnum z = true ∧
    ∀ b ∈ mid, isBucketAlnum b = true ∨ b = 0x2D)

/-- Two bytes that may stand next to each other in a bucket name. -/
def Adjacent (a b : UInt8) : Prop :=
  ¬ (a = 0x2E ∧ b = 0x2E) ∧ ¬ (a = 0x2E ∧ b = 0x2D) ∧ ¬ (a = 0x2D ∧ b = 0x2E)

/-- What the rule asks of the bytes of a name, its length and its shape as an address apart. -/
structure Regular (bs : Bytes) : Prop where
  adjacent : bs.IsChain Adjacent
  first : ∃ a, bs.head? = some a ∧ isBucketAlnum a = true
  last : ∃ z, bs.getLast? = some z ∧ isBucketAlnum z = true
  bytes : ∀ b ∈ bs, isBucketAlnum b = true ∨ b = 0x2E ∨ b = 0x2D

theorem bucketAlnum_ne : ∀ b : UInt8, isBucketAlnum b = true → b ≠ 0x2E ∧ b ≠ 0x2D := by
  apply forall_uint8
  decide +kernel

/-- A text without dots is regular exactly if it is a label. -/
theorem regular_iff_isLabel {l : Bytes} (hdot : 0x2E ∉ l) : Regular l ↔ IsLabel l := by
  constructor
  · intro h
    obtain ⟨a, ha, alnum⟩ := h.first
    obtain ⟨z, hz, alnum'⟩ := h.last
    have inner : ∀ b ∈ l, isBucketAlnum b = true ∨ b = 0x2D := by
      intro b hb
      rcases h.bytes b hb with hb' | rfl | hb'
      · exact .inl hb'
      · exact absurd hb hdot
      · exact .inr hb'
    obtain ⟨rest, rfl⟩ := List.head?_eq_some_iff.mp ha
    refine ⟨a, alnum, ?_⟩
    rcases List.eq_nil_or_concat rest with rfl | ⟨mid, y, rfl⟩
    · exact .inl rfl
    · rw [List.concat_eq_append] at *
      have last : y = z := by
        rw [← List.cons_append, List.getLast?_concat] at hz
        exact Option.some.inj hz
      exact .inr ⟨mid, y, rfl, last ▸ alnum', fun b hb => inner b (by simp [hb])⟩
  · rintro ⟨a, alnum, hl⟩
    have chain : l.IsChain Adjacent := by
      rw [List.isChain_iff_forall_rel_of_append_cons_cons]
      rintro x y l₁ l₂ rfl
      have hx : x ≠ 0x2E := fun he => hdot (by simp [he])
      have hy : y ≠ 0x2E := fun he => hdot (by simp [he])
      exact ⟨fun hc => hx hc.1, fun hc => hx hc.1, fun hc => hy hc.2⟩
    rcases hl with rfl | ⟨mid, z, rfl, alnum', inner⟩
    · exact ⟨chain, ⟨a, rfl, alnum⟩, ⟨a, rfl, alnum⟩,
        fun b hb => .inl (List.mem_singleton.mp hb ▸ alnum)⟩
    · refine ⟨chain, ⟨a, rfl, alnum⟩, ⟨z, ?_, alnum'⟩, fun b hb => ?_⟩
      · rw [← List.cons_append, List.getLast?_concat]
      · rcases List.mem_cons.mp hb with rfl | hb
        · exact .inl alnum
        · rcases List.mem_append.mp hb with hb | hb
          · exact (inner b hb).imp id .inr
          · exact .inl (List.mem_singleton.mp hb ▸ alnum')

/-- A dot between two texts: both are regular, or neither are they together. -/
theorem regular_dot {l rest : Bytes} (hdot : 0x2E ∉ l) :
    Regular (l ++ 0x2E :: rest) ↔ Regular l ∧ Regular rest := by
  constructor
  · intro h
    obtain ⟨left, right, -⟩ := List.isChain_append.mp h.adjacent
    have sides := List.isChain_split.mp h.adjacent
    -- The text before the dot ends alphanumerically.
    have lastL : ∃ z, l.getLast? = some z ∧ isBucketAlnum z = true := by
      rcases List.eq_nil_or_concat l with rfl | ⟨mid, z, rfl⟩
      · obtain ⟨a, ha, alnum⟩ := h.first
        cases ha
        exact absurd rfl (bucketAlnum_ne _ alnum).1
      · rw [List.concat_eq_append] at *
        refine ⟨z, List.getLast?_concat, ?_⟩
        have pair : Adjacent z 0x2E := by
          have both := sides.1
          rw [List.append_assoc, List.singleton_append] at both
          exact (List.isChain_append_cons_cons.mp both).2.1
        rcases h.bytes z (by simp) with hz | rfl | rfl
        · exact hz
        · exact absurd ⟨rfl, rfl⟩ pair.1
        · exact absurd ⟨rfl, rfl⟩ pair.2.2
    -- The text after it starts so.
    have headR : ∃ a, rest.head? = some a ∧ isBucketAlnum a = true := by
      cases rest with
      | nil =>
          obtain ⟨z, hz, alnum⟩ := h.last
          rw [List.getLast?_concat] at hz
          cases hz
          exact absurd rfl (bucketAlnum_ne _ alnum).1
      | cons a rest =>
          refine ⟨a, rfl, ?_⟩
          have pair : Adjacent 0x2E a := (List.isChain_cons_cons.mp sides.2).1
          rcases h.bytes a (by simp) with ha | rfl | rfl
          · exact ha
          · exact absurd ⟨rfl, rfl⟩ pair.1
          · exact absurd ⟨rfl, rfl⟩ pair.2.1
    obtain ⟨z, hz, alnumZ⟩ := lastL
    obtain ⟨a, ha, alnumA⟩ := headR
    refine ⟨⟨left, ?_, ⟨z, hz, alnumZ⟩, fun b hb => h.bytes b (by simp [hb])⟩,
      ⟨List.isChain_of_isChain_cons right, ⟨a, ha, alnumA⟩, ?_,
        fun b hb => h.bytes b (by simp [hb])⟩⟩
    · obtain ⟨x, hx, alnum⟩ := h.first
      cases l with
      | nil => cases hz
      | cons y l => exact ⟨x, hx, alnum⟩
    · obtain ⟨x, hx, alnum⟩ := h.last
      cases rest with
      | nil => cases ha
      | cons y rest =>
          rw [List.getLast?_append_of_ne_nil _ (List.cons_ne_nil _ _),
            List.getLast?_cons_cons] at hx
          exact ⟨x, hx, alnum⟩
  · rintro ⟨hl, hr⟩
    obtain ⟨z, hz, alnumZ⟩ := hl.last
    obtain ⟨a, ha, alnumA⟩ := hr.first
    have afterDot : (0x2E :: rest).IsChain Adjacent := by
      cases rest with
      | nil => cases ha
      | cons y rest =>
          cases ha
          have ne := bucketAlnum_ne _ alnumA
          exact List.isChain_cons_cons.mpr
            ⟨⟨fun hc => ne.1 hc.2, fun hc => ne.2 hc.2, fun hc => ne.1 hc.2⟩, hr.adjacent⟩
    refine ⟨List.isChain_append.mpr ⟨hl.adjacent, afterDot, ?_⟩, ?_, ?_, ?_⟩
    · intro x hx y hy
      cases hz.symm.trans hx
      cases hy
      have ne := bucketAlnum_ne _ alnumZ
      exact ⟨fun hc => ne.1 hc.1, fun hc => ne.1 hc.1, fun hc => ne.2 hc.1⟩
    · obtain ⟨x, hx, alnum⟩ := hl.first
      obtain ⟨l', rfl⟩ := List.head?_eq_some_iff.mp hx
      exact ⟨x, rfl, alnum⟩
    · obtain ⟨x, hx, alnum⟩ := hr.last
      refine ⟨x, ?_, alnum⟩
      obtain ⟨r', rfl⟩ := List.head?_eq_some_iff.mp ha
      rw [List.getLast?_append_of_ne_nil _ (List.cons_ne_nil _ _), List.getLast?_cons_cons]
      exact hx
    · intro b hb
      rcases List.mem_append.mp hb with hb | hb
      · exact hl.bytes b hb
      · rcases List.mem_cons.mp hb with rfl | hb
        · exact .inr (.inl rfl)
        · exact hr.bytes b hb

/-- **The pairs the rule forbids are the label grammar**: by induction on the labels. -/
theorem regular_intercalate : ∀ {labels : List Bytes}, labels ≠ [] → (∀ l ∈ labels, 0x2E ∉ l) →
    (Regular ([0x2E].intercalate labels) ↔ ∀ l ∈ labels, IsLabel l)
  | [], hne, _ => absurd rfl hne
  | [l], _, hdot => by
      rw [List.intercalate_singleton, regular_iff_isLabel (hdot l (by simp)),
        List.forall_mem_singleton]
  | l :: l' :: labels, _, hdot => by
      rw [List.intercalate_cons_cons, List.append_assoc, List.singleton_append,
        regular_dot (hdot l (by simp)), regular_iff_isLabel (hdot l (by simp)),
        regular_intercalate (List.cons_ne_nil _ _) fun x hx => hdot x (List.mem_cons_of_mem _ hx),
        List.forall_mem_cons (a := l)]

theorem not_dot_of_isLabel {l : Bytes} (h : IsLabel l) : 0x2E ∉ l := by
  obtain ⟨a, alnum, rfl | ⟨mid, z, rfl, alnum', inner⟩⟩ := h
  · intro hm
    exact (bucketAlnum_ne a alnum).1 (List.mem_singleton.mp hm).symm
  · intro hm
    rcases List.mem_cons.mp hm with rfl | hm
    · exact (bucketAlnum_ne _ alnum).1 rfl
    · rcases List.mem_append.mp hm with hm | hm
      · rcases inner _ hm with alnum'' | hdash
        · exact (bucketAlnum_ne _ alnum'').1 rfl
        · cases hdash
      · exact (bucketAlnum_ne z alnum').1 (List.mem_singleton.mp hm).symm

theorem containsStr_iff {name pat : String} :
    containsStr name pat = true ↔ utf8 pat <:+: utf8 name := by
  rw [containsStr]
  constructor
  · intro h
    obtain ⟨i, hi⟩ := Option.isSome_iff_exists.mp h
    exact (find_occurs hi).1.isInfix.trans (List.drop_suffix i _).isInfix
  · rintro ⟨x, y, hxy⟩
    by_contra h
    have none := find_eq_none (Option.not_isSome_iff_eq_none.mp h)
    refine none x.length ?_ ?_
    · rw [← hxy]
      simp only [List.length_append]
      omega
    · rw [← hxy, List.append_assoc, List.drop_left]
      exact List.prefix_append _ _

/-- The three searches are one condition on neighbours. -/
theorem isChain_adjacent_iff {name : String} : (utf8 name).IsChain Adjacent ↔
    containsStr name ".." = false ∧ containsStr name ".-" = false ∧
    containsStr name "-." = false := by
  have pair : ∀ x y : UInt8, ¬ [x, y] <:+: utf8 name ↔
      ∀ ⦃a b : UInt8⦄ ⦃l₁ l₂ : Bytes⦄, utf8 name = l₁ ++ a :: b :: l₂ → ¬ (a = x ∧ b = y) := by
    intro x y
    constructor
    · rintro h a b l₁ l₂ he ⟨rfl, rfl⟩
      exact h ⟨l₁, l₂, by simp [he]⟩
    · rintro h ⟨l₁, l₂, he⟩
      have whole : utf8 name = l₁ ++ x :: y :: l₂ := by simp [← he]
      exact h whole ⟨rfl, rfl⟩
  have texts : utf8 ".." = [0x2E, 0x2E] ∧ utf8 ".-" = [0x2E, 0x2D] ∧ utf8 "-." = [0x2D, 0x2E] := by
    decide
  simp only [← Bool.not_eq_true, containsStr_iff, texts.1, texts.2.1, texts.2.2, pair,
    List.isChain_iff_forall_rel_of_append_cons_cons]
  constructor
  · exact fun h => ⟨fun _ _ _ _ he => (h he).1, fun _ _ _ _ he => (h he).2.1,
      fun _ _ _ _ he => (h he).2.2⟩
  · exact fun h a b l₁ l₂ he => ⟨h.1 he, h.2.1 he, h.2.2 he⟩

theorem isValidBucketName_eq_true {name : String} : isValidBucketName name = true ↔
    (3 ≤ (utf8 name).length ∧ (utf8 name).length ≤ 63) ∧ Regular (utf8 name) ∧
      looksLikeIpv4 name = false := by
  have ends : ∀ o : Option UInt8, o.any isBucketAlnum = true ↔ ∃ a, o = some a ∧
      isBucketAlnum a = true := by
    intro o
    cases o <;> simp
  -- Each test that returns early is a conjunct.
  have early : ∀ c x : Bool, (if c = true then false else x) = true ↔ c = false ∧ x = true := by
    intro c x
    cases c <;> simp
  rw [isValidBucketName, early, early, early, early]
  simp only [Bool.not_eq_false', Bool.and_eq_true, Bool.or_eq_false_iff, decide_eq_true_eq,
    List.all_eq_true, Bool.or_eq_true, ends, or_assoc]
  constructor
  · rintro ⟨len, pairs, shape, sides, bytes⟩
    exact ⟨len, ⟨isChain_adjacent_iff.mpr ⟨pairs.1.1, pairs.1.2, pairs.2⟩,
      sides.1, sides.2, bytes⟩, shape⟩
  · rintro ⟨len, regular, shape⟩
    obtain ⟨p₁, p₂, p₃⟩ := isChain_adjacent_iff.mp regular.adjacent
    exact ⟨len, ⟨⟨p₁, p₂⟩, p₃⟩, shape, ⟨regular.first, regular.last⟩, regular.bytes⟩

theorem decimalGroup_iff_of_isLabel {l : Bytes} (h : IsLabel l) :
    isDecimalGroup l = true ↔ ∀ b ∈ l, 0x30 ≤ b ∧ b ≤ 0x39 := by
  have ne : l ≠ [] := by
    obtain ⟨a, -, rfl | ⟨mid, z, rfl, -⟩⟩ := h
    · exact List.cons_ne_nil _ _
    · exact List.cons_ne_nil _ _
  simp [isDecimalGroup, ne]

/-- **The bucket names accepted are exactly the grammar**, and each is one path component of its
own: different names are different directories, and none is the engine's. -/
theorem isValidBucketName_iff_grammar :
    (∀ name : String, isValidBucketName name = true ↔
      3 ≤ (utf8 name).length ∧ (utf8 name).length ≤ 63 ∧
        ∃ labels : List Bytes, labels ≠ [] ∧ (∀ l ∈ labels, IsLabel l) ∧
          utf8 name = [0x2E].intercalate labels ∧
          ¬ (labels.length = 4 ∧ ∀ l ∈ labels, ∀ b ∈ l, 0x30 ≤ b ∧ b ≤ 0x39)) ∧
    (∀ name : String, isValidBucketName name = true →
      OneComponent (utf8 name) ∧
        bucketDir name ∉ [[], [AKS3_DIR], tmpDir, formatPath, bucketsDir] ∧
        ¬ [AKS3_DIR] <:+ bucketDir name) ∧
    (∀ name name' : String, isValidBucketName name = true → isValidBucketName name' = true →
      name ≠ name' → bucketDir name ≠ bucketDir name') := by
  refine ⟨fun name => ?_, fun name h => ⟨?_, ?_, ?_⟩, fun name name' _ _ hne he => ?_⟩
  · rw [isValidBucketName_eq_true, and_assoc]
    refine and_congr_right fun _ => and_congr_right fun _ => ?_
    constructor
    · rintro ⟨regular, shape⟩
      have join : [0x2E].intercalate ((utf8 name).splitOn 0x2E) = utf8 name :=
        List.intercalate_splitOn _
      have labels : ∀ l ∈ (utf8 name).splitOn 0x2E, IsLabel l := by
        rw [← regular_intercalate (List.splitOn_ne_nil _ _) fun l hl =>
          not_mem_of_mem_splitOn hl, join]
        exact regular
      refine ⟨(utf8 name).splitOn 0x2E, List.splitOn_ne_nil _ _, labels, join.symm, ?_⟩
      rintro ⟨four, digits⟩
      have address : looksLikeIpv4 name = true := by
        rw [looksLikeIpv4, Bool.and_eq_true, decide_eq_true_eq, List.all_eq_true]
        exact ⟨four, fun l hl => (decimalGroup_iff_of_isLabel (labels l hl)).mpr (digits l hl)⟩
      rw [shape] at address
      cases address
    · rintro ⟨labels, hne, hlabels, hname, shape⟩
      have nodot : ∀ l ∈ labels, 0x2E ∉ l := fun l hl => not_dot_of_isLabel (hlabels l hl)
      refine ⟨hname ▸ (regular_intercalate hne nodot).mpr hlabels, ?_⟩
      rw [looksLikeIpv4, hname, List.splitOn_intercalate _ nodot hne]
      by_contra address
      simp only [Bool.not_eq_false, Bool.and_eq_true, decide_eq_true_eq,
        List.all_eq_true] at address
      exact shape ⟨address.1, fun l hl => (decimalGroup_iff_of_isLabel (hlabels l hl)).mp
        (address.2 l hl)⟩
  · obtain ⟨len, regular, -⟩ := isValidBucketName_eq_true.mp h
    have long : ∀ n : Bytes, n.length < 3 → utf8 name ≠ n := by
      rintro n hn rfl
      omega
    refine oneComponent_of_nameBytes (long _ (by decide))
      ⟨long _ (by decide), long _ (by decide)⟩ ?_
    have harmless : ∀ b : UInt8, isBucketAlnum b = true ∨ b = 0x2E ∨ b = 0x2D →
        isNameByte b = true := by
      apply forall_uint8
      decide +kernel
    exact fun b hb => harmless b (regular.bytes b hb)
  · have two : (bucketDir name).length = 2 := rfl
    have top : (bucketDir name).getLast? = some BUCKETS_DIR := rfl
    intro hm
    simp only [List.mem_cons, List.not_mem_nil, or_false] at hm
    rcases hm with he | he | he | he | he <;> rw [he] at two top <;> revert two top <;> decide
  · rintro ⟨up, hup⟩
    have top : (bucketDir name).getLast? = some BUCKETS_DIR := rfl
    rw [← hup, List.getLast?_concat] at top
    exact absurd (Option.some.inj top) (by decide)
  · exact hne (utf8_inj.mp (List.cons.inj he).1)

end Aks3.Engine
