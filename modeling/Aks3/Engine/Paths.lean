import Aks3.Lib.FileTree

/-!
# Object keys as paths

An object key is split at `/`, and each component becomes one file name. The
bytes that mean something to a filesystem are percent-escaped, `.`, `..` and the
empty component are escaped whole, and a component that starts like one of the
engine's own files has its first byte escaped. Decoding a file name undoes that
on its bytes and checks that the result is a text.

The encoding is reversible: `decodeComponent_encodeComponent` for a component
and `relPathToKey_keyToRelPath` for a key, so distinct keys get distinct paths
(`keyToRelPath_injective`). No encoded component is a name of the engine's own
(`encodeComponent_not_reserved`), and each is a plain file name
(`plainName_encodeComponent`).
-/

set_option autoImplicit false

namespace Aks3.Engine

open Lib

/-- A file name, as the bytes the filesystem stores. -/
abbrev OsName := Bytes

/-- Name of the per-object metadata file inside an object directory. -/
def META_FILE : String := "__aks3.meta.json"

/-- Component prefix reserved for bookkeeping files. -/
def RESERVED_PREFIX : String := "__aks3"

inductive PathError where
  | badEscape
  | nonUtf8
  deriving DecidableEq, Repr

/-! ## Escapes -/

def HEX : List Char :=
  ['0', '1', '2', '3', '4', '5', '6', '7', '8', '9', 'A', 'B', 'C', 'D', 'E', 'F']

/-- The characters `push_escape` appends for a byte. -/
def pushEscape (b : UInt8) : List Char :=
  ['%', HEX[(b >>> 4).toNat]?.getD '0', HEX[(b &&& 0x0F).toNat]?.getD '0']

/-- Value of a single hex digit, accepting either case. -/
def hexVal (b : UInt8) : Option UInt8 :=
  if 0x30 ≤ b ∧ b ≤ 0x39 then some (b - 0x30)
  else if 0x61 ≤ b ∧ b ≤ 0x66 then some (b - 0x61 + 10)
  else if 0x41 ≤ b ∧ b ≤ 0x46 then some (b - 0x41 + 10)
  else none

/-- Whether a byte must be percent-encoded inside a component. -/
def needsEscape (b : UInt8) : Bool := b = 0x25 || b < 0x20 || b = 0x7F || b = 0x5C

def isAscii (c : Char) : Bool := c.toNat < 128

/-- One character of a component. -/
def encodeChar (c : Char) : List Char :=
  if isAscii c && needsEscape c.toNat.toUInt8 then pushEscape c.toNat.toUInt8 else [c]

/-- Encode one key component (a `/`-free slice of a key) as a file name. -/
def encodeComponent (c : String) : String :=
  if c = "" then "%2F"
  else if c = "." then "%2E"
  else if c = ".." then "%2E%2E"
  else if RESERVED_PREFIX.toList.isPrefixOf c.toList then
    String.ofList ("%5F".toList ++ c.toList.tail.flatMap encodeChar)
  else String.ofList (c.toList.flatMap encodeChar)

/-- The byte loop of `decode_component`. -/
def decodeBytes : Bytes → Except PathError Bytes
  | [] => .ok []
  | b :: rest =>
    if b = 0x25 then
      match rest with
      | h :: l :: rest =>
        match hexVal h, hexVal l with
        | some hi, some lo =>
          match decodeBytes rest with
          | .ok out => .ok (((hi <<< 4) ||| lo) :: out)
          | .error e => .error e
        | _, _ => .error .badEscape
      | _ => .error .badEscape
    else
      match decodeBytes rest with
      | .ok out => .ok (b :: out)
      | .error e => .error e

/-- Decode one encoded file name back into a key component. -/
def decodeComponent (c : String) : Except PathError String :=
  match decodeBytes (utf8 c) with
  | .error e => .error e
  | .ok out =>
    match fromUtf8 out with
    | none => .error .nonUtf8
    | some decoded =>
      if decoded = "/" then .ok ""
      else if '/' ∈ decoded.toList then .error .badEscape
      else .ok decoded

/-- `key.split('/')`. -/
def components (key : String) : List String :=
  (key.toList.splitOn '/').map String.ofList

/-- Encode a full key as a path below the bucket's object tree. -/
def keyToRelPath (key : String) : Path OsName :=
  ((components key).map fun c => utf8 (encodeComponent c)).reverse

/-- One component of an on-disk path: a plain name, valid UTF-8, that decodes. -/
def decodeName (name : OsName) : Except PathError String :=
  if name = utf8 "." ∨ name = utf8 ".." then .error .badEscape
  else
    match fromUtf8 name with
    | none => .error .nonUtf8
    | some name => decodeComponent name

/-- Recover the key from a relative path. -/
def relPathToKey (p : Path OsName) : Except PathError String := do
  let parts ← p.reverse.mapM decodeName
  pure (String.ofList (['/'].intercalate (parts.map String.toList)))

/-! ## Version ids -/

/-- Bytes that may appear unescaped in a data file name. -/
def isSafeVersionByte (b : UInt8) : Bool :=
  (0x30 ≤ b && b ≤ 0x39) || (0x41 ≤ b && b ≤ 0x5A) || (0x61 ≤ b && b ≤ 0x7A) ||
    b = 0x2E || b = 0x5F || b = 0x2D

/-- Name of the data file holding the bytes of one object version. -/
def dataFileName (versionId : String) : String :=
  String.ofList ("__aks3.v.".toList ++
    (utf8 versionId).flatMap (fun b =>
      if isSafeVersionByte b then [Char.ofNat b.toNat] else pushEscape b) ++
    ".data".toList)

/-! ## Decoding inverts encoding -/

/-- A fact about a byte, checked at each of the 256 bytes. -/
theorem forall_uint8 {P : UInt8 → Prop} (h : ∀ n : Fin 256, P (UInt8.ofFin n)) (b : UInt8) :
    P b := by
  have at_b := h b.toFin
  simpa using at_b

theorem utf8EncodeChar_ascii {c : Char} (h : isAscii c = true) :
    String.utf8EncodeChar c = [c.toNat.toUInt8] := by
  have small : c.val.toNat ≤ 127 := by
    have hc : c.toNat < 128 := by simpa [isAscii] using h
    exact Nat.le_of_lt_succ hc
  rw [String.utf8EncodeChar]
  exact if_pos small

theorem high_ofNat {m : Nat} (low : 128 ≤ m) (high : m < 256) : 0x80 ≤ UInt8.ofNat m := by
  rw [UInt8.le_iff_toNat_le, UInt8.toNat_ofNat_of_lt' high]
  exact low

/-- Outside ASCII every byte of a character has its top bit set. -/
theorem high_of_not_ascii {c : Char} (h : isAscii c = false) :
    ∀ b ∈ String.utf8EncodeChar c, 0x80 ≤ b := by
  have large : ¬ c.val.toNat ≤ 127 := by
    have hc : 128 ≤ c.toNat := by simpa [isAscii] using h
    exact Nat.not_le_of_lt hc
  rw [String.utf8EncodeChar]
  simp only [large, if_false]
  intro b hb
  split at hb
  · simp only [List.mem_cons, List.not_mem_nil, or_false] at hb
    rcases hb with rfl | rfl <;> exact high_ofNat (by omega) (by omega)
  · split at hb
    · simp only [List.mem_cons, List.not_mem_nil, or_false] at hb
      rcases hb with rfl | rfl | rfl <;> exact high_ofNat (by omega) (by omega)
    · simp only [List.mem_cons, List.not_mem_nil, or_false] at hb
      rcases hb with rfl | rfl | rfl | rfl <;> exact high_ofNat (by omega) (by omega)

theorem decodeBytes_plain {bs rest : Bytes} (h : ∀ b ∈ bs, b ≠ 0x25) :
    decodeBytes (bs ++ rest) = (decodeBytes rest).map (bs ++ ·) := by
  induction bs with
  | nil => cases hr : decodeBytes rest <;> simp [hr, Except.map]
  | cons b bs ih =>
      rw [List.cons_append, decodeBytes.eq_def]
      simp only [h b (by simp), if_false, ih fun x hx => h x (by simp [hx])]
      cases decodeBytes rest <;> simp [Except.map]

/-- An escape decodes to the byte it was made from. -/
theorem decodeBytes_escape (b : UInt8) (rest : Bytes) :
    decodeBytes ((pushEscape b).flatMap String.utf8EncodeChar ++ rest) =
      (decodeBytes rest).map (b :: ·) := by
  have shape : ∀ b : UInt8, ∃ h l hi lo, (pushEscape b).flatMap
      String.utf8EncodeChar = [0x25, h, l] ∧
      hexVal h = some hi ∧ hexVal l = some lo ∧ (hi <<< 4) ||| lo = b := by
    have digits : ∀ b : UInt8,
        let d := (pushEscape b).flatMap String.utf8EncodeChar
        d = [0x25, d[1]?.getD 0, d[2]?.getD 0] ∧
          (hexVal (d[1]?.getD 0)).isSome = true ∧ (hexVal (d[2]?.getD 0)).isSome = true ∧
          ((hexVal (d[1]?.getD 0)).getD 0 <<< 4) ||| (hexVal (d[2]?.getD 0)).getD 0 = b := by
      apply forall_uint8
      decide +kernel
    intro b
    obtain ⟨hd, h1, h2, h3⟩ := digits b
    obtain ⟨hi, hhi⟩ := Option.isSome_iff_exists.mp h1
    obtain ⟨lo, hlo⟩ := Option.isSome_iff_exists.mp h2
    exact ⟨_, _, hi, lo, hd, hhi, hlo, by simpa [hhi, hlo] using h3⟩
  obtain ⟨h, l, hi, lo, hd, hhi, hlo, rfl⟩ := shape b
  rw [hd, List.cons_append, List.cons_append, List.cons_append, List.nil_append, decodeBytes]
  simp only [if_true, hhi, hlo]
  cases decodeBytes rest <;> rfl

theorem decodeBytes_encodeChar (c : Char) (rest : Bytes) :
    decodeBytes ((encodeChar c).flatMap String.utf8EncodeChar ++ rest) =
      (decodeBytes rest).map (String.utf8EncodeChar c ++ ·) := by
  unfold encodeChar
  by_cases ascii : isAscii c = true
  · by_cases esc : needsEscape c.toNat.toUInt8 = true
    · rw [if_pos (by simp [ascii, esc]), decodeBytes_escape, utf8EncodeChar_ascii ascii]
      rfl
    · rw [if_neg (by simp [ascii, esc]), List.flatMap_singleton]
      refine decodeBytes_plain fun b hb => ?_
      rw [utf8EncodeChar_ascii ascii, List.mem_singleton] at hb
      rintro rfl
      exact esc (by rw [← hb]; decide)
  · rw [if_neg (by simp [ascii]), List.flatMap_singleton]
    refine decodeBytes_plain fun b hb => ?_
    rintro rfl
    exact absurd (high_of_not_ascii (Bool.not_eq_true _ ▸ ascii) _ hb) (by decide)

theorem decodeBytes_encodeChars (cs : List Char) :
    decodeBytes ((cs.flatMap encodeChar).flatMap String.utf8EncodeChar) =
      .ok (cs.flatMap String.utf8EncodeChar) := by
  induction cs with
  | nil => rfl
  | cons c cs ih =>
      rw [List.flatMap_cons, List.flatMap_append, decodeBytes_encodeChar, ih, List.flatMap_cons]
      rfl

/-- The bytes of an encoded component decode to the component's, with `/` for the empty one. -/
theorem decodeBytes_encodeComponent (c : String) :
    decodeBytes (utf8 (encodeComponent c)) = .ok (if c = "" then utf8 "/" else utf8 c) := by
  unfold encodeComponent
  split
  · decide
  · split
    · rename_i hc
      subst hc
      decide
    · split
      · rename_i hc
        subst hc
        decide
      · split
        · rename_i reserved
          rw [utf8_ofList, List.flatMap_append]
          obtain ⟨rest, hrest⟩ := List.isPrefixOf_iff_prefix.mp reserved
          have hc : c.toList = '_' :: c.toList.tail := by
            rw [← hrest]
            rfl
          have first := decodeBytes_escape 0x5F
            ((c.toList.tail.flatMap encodeChar).flatMap String.utf8EncodeChar)
          have same : (pushEscape 0x5F) = "%5F".toList := by decide
          rw [same] at first
          rw [first, decodeBytes_encodeChars, utf8_eq_flatMap c]
          conv_rhs => rw [hc, List.flatMap_cons]
          rfl
        · rw [utf8_ofList, decodeBytes_encodeChars, utf8_eq_flatMap c]

/-- **Decoding inverts encoding** on components that hold no `/`. -/
theorem decodeComponent_encodeComponent {c : String} (h : '/' ∉ c.toList) :
    decodeComponent (encodeComponent c) = .ok c := by
  unfold decodeComponent
  rw [decodeBytes_encodeComponent]
  by_cases hc : c = ""
  · subst hc
    rw [if_pos rfl]
    simp
  · rw [if_neg hc]
    simp only [fromUtf8_utf8]
    have hslash : c ≠ "/" := by
      rintro rfl
      exact h (by decide)
    rw [if_neg hslash, if_neg h]

example : decodeComponent "%5F_aks3.meta.json" = .ok META_FILE := by decide

/-! ## Names of the engine's own -/

theorem encodeChar_cases (c : Char) :
    encodeChar c = [c] ∨ ∃ rest, encodeChar c = '%' :: rest := by
  unfold encodeChar
  split
  · exact .inr ⟨_, rfl⟩
  · exact .inl rfl

/-- What an encoded text starts with, short of an escape, the text starts with. -/
theorem prefix_of_encodeChars : ∀ {p cs : List Char}, '%' ∉ p →
    p <+: cs.flatMap encodeChar → p <+: cs
  | [], _, _, _ => List.nil_prefix
  | x :: p, [], _, h => absurd h (by simp)
  | x :: p, c :: cs, hp, h => by
      rw [List.flatMap_cons] at h
      rcases encodeChar_cases c with hc | ⟨rest, hc⟩
      · rw [hc, List.singleton_append, List.cons_prefix_cons] at h
        rw [List.cons_prefix_cons]
        exact ⟨h.1, prefix_of_encodeChars (fun hx => hp (by simp [hx])) h.2⟩
      · rw [hc, List.cons_append, List.cons_prefix_cons] at h
        exact absurd h.1 (fun hx => hp (by simp [hx]))

/-- A name of the engine's own: it starts with the reserved prefix. -/
def Reserved (name : String) : Prop := RESERVED_PREFIX.toList <+: name.toList

instance (name : String) : Decidable (Reserved name) :=
  inferInstanceAs (Decidable (_ <+: _))

/-- **No component encodes to a reserved name.** -/
theorem encodeComponent_not_reserved (c : String) : ¬ Reserved (encodeComponent c) := by
  unfold Reserved encodeComponent
  split
  · decide
  · split
    · decide
    · split
      · decide
      · split
        · rw [String.toList_ofList]
          intro h
          have hne : RESERVED_PREFIX.toList = '_' :: RESERVED_PREFIX.toList.tail := by decide
          rw [hne] at h
          have hpct : "%5F".toList = '%' :: "%5F".toList.tail := by decide
          rw [hpct, List.cons_append, List.cons_prefix_cons] at h
          exact absurd h.1 (by decide)
        · rename_i plain
          rw [String.toList_ofList]
          intro h
          exact plain (List.isPrefixOf_iff_prefix.mpr (prefix_of_encodeChars (by decide) h))

theorem reserved_metaFile : Reserved META_FILE := by decide

theorem reserved_dataFileName (v : String) : Reserved (dataFileName v) := by
  unfold Reserved dataFileName
  rw [String.toList_ofList, List.append_assoc]
  exact List.IsPrefix.trans (by decide : _ <+: "__aks3.v.".toList) (List.prefix_append _ _)

theorem encodeComponent_ne_of_reserved {c name : String} (h : Reserved name) :
    utf8 (encodeComponent c) ≠ utf8 name := by
  intro he
  exact encodeComponent_not_reserved c (utf8_inj.mp he ▸ h)

/-! ## Every component is a plain file name -/

/-- A character that means nothing to a filesystem. -/
def SafeChar (c : Char) : Prop := c ≠ '/' ∧ c ≠ '\\' ∧ 0x20 ≤ c.toNat ∧ c.toNat ≠ 0x7F

instance (c : Char) : Decidable (SafeChar c) :=
  inferInstanceAs (Decidable (c ≠ '/' ∧ c ≠ '\\' ∧ 0x20 ≤ c.toNat ∧ c.toNat ≠ 0x7F))

theorem safeChars {cs : List Char} (h : (cs.all fun c => SafeChar c) = true) :
    ∀ c ∈ cs, SafeChar c :=
  fun c hc => of_decide_eq_true (List.all_eq_true.mp h c hc)

theorem mem_of_mem_pushEscape {b : UInt8} {c : Char} (h : c ∈ pushEscape b) : c ∈ '%' :: HEX := by
  have digit : ∀ i : Nat, HEX[i]?.getD '0' ∈ HEX := by
    intro i
    cases hi : HEX[i]? with
    | none => decide
    | some d => exact List.mem_of_getElem? hi
  simp only [pushEscape, List.mem_cons, List.not_mem_nil, or_false] at h
  rcases h with rfl | rfl | rfl
  · exact List.mem_cons_self
  · exact List.mem_cons_of_mem _ (digit _)
  · exact List.mem_cons_of_mem _ (digit _)

theorem safeChar_pushEscape {b : UInt8} {c : Char} (h : c ∈ pushEscape b) : SafeChar c :=
  safeChars (by decide : (('%' :: HEX).all fun c => SafeChar c) = true) c (mem_of_mem_pushEscape h)

theorem safeChar_encodeChar {c c' : Char} (h : c ≠ '/') (hc : c' ∈ encodeChar c) : SafeChar c' := by
  unfold encodeChar at hc
  split at hc
  · exact safeChar_pushEscape hc
  rename_i plain
  obtain rfl := List.mem_singleton.mp hc
  by_cases ascii : isAscii c' = true
  · have small : c'.toNat < 128 := by simpa [isAscii] using ascii
    have esc : needsEscape c'.toNat.toUInt8 = false := by simpa [ascii] using plain
    simp only [needsEscape, Bool.or_eq_false_iff, decide_eq_false_iff_not] at esc
    obtain ⟨⟨⟨-, low⟩, del⟩, back⟩ := esc
    have value : c'.toNat.toUInt8.toNat = c'.toNat :=
      UInt8.toNat_ofNat_of_lt' (small.trans (by decide))
    rw [UInt8.lt_iff_toNat_lt, value] at low
    rw [← UInt8.toNat_inj, value] at del back
    refine ⟨h, ?_, Nat.le_of_not_lt low, del⟩
    rintro rfl
    exact back rfl
  · have large : 128 ≤ c'.toNat := by simpa [isAscii] using ascii
    refine ⟨h, ?_, by omega, by omega⟩
    rintro rfl
    exact absurd large (by decide)

theorem safeChar_encodeComponent {c : String} (h : '/' ∉ c.toList) :
    ∀ x ∈ (encodeComponent c).toList, SafeChar x := by
  have chars : ∀ cs : List Char, '/' ∉ cs → ∀ x ∈ cs.flatMap encodeChar, SafeChar x := by
    intro cs hcs x hx
    obtain ⟨y, hy, hx⟩ := List.mem_flatMap.mp hx
    exact safeChar_encodeChar (fun he => hcs (he ▸ hy)) hx
  unfold encodeComponent
  split
  · exact safeChars (by decide)
  split
  · exact safeChars (by decide)
  split
  · exact safeChars (by decide)
  split
  · intro x hx
    rw [String.toList_ofList, List.mem_append] at hx
    rcases hx with hx | hx
    · exact safeChars (by decide : ("%5F".toList.all fun c => SafeChar c) = true) x hx
    · exact chars _ (fun hm => h (List.mem_of_mem_tail hm)) x hx
  · intro x hx
    rw [String.toList_ofList] at hx
    exact chars _ h x hx

/-- A byte below 0x80 of a text is one of its characters. -/
theorem char_of_ascii_byte {s : String} {b : UInt8} (h : b ∈ utf8 s) (hb : b < 0x80) :
    ∃ c ∈ s.toList, c.toNat = b.toNat := by
  rw [utf8_eq_flatMap] at h
  obtain ⟨c, hc, hb'⟩ := List.mem_flatMap.mp h
  refine ⟨c, hc, ?_⟩
  by_cases ascii : isAscii c = true
  · have small : c.toNat < 128 := by simpa [isAscii] using ascii
    rw [utf8EncodeChar_ascii ascii, List.mem_singleton] at hb'
    rw [hb']
    exact (UInt8.toNat_ofNat_of_lt' (small.trans (by decide))).symm
  · have high := high_of_not_ascii (Bool.eq_false_of_not_eq_true ascii) b hb'
    exact absurd hb (UInt8.not_lt.mpr high)

/-- A file name that is one component and stands for nothing else. -/
structure PlainName (n : OsName) : Prop where
  nonempty : n ≠ []
  notDot : n ≠ utf8 "." ∧ n ≠ utf8 ".."
  noSlash : 0x2F ∉ n
  noBackslash : 0x5C ∉ n
  noControl : ∀ b ∈ n, 0x20 ≤ b ∧ b ≠ 0x7F
  notReserved : ¬ utf8 RESERVED_PREFIX <+: n

theorem plainName_encodeComponent {c : String} (h : '/' ∉ c.toList) :
    PlainName (utf8 (encodeComponent c)) := by
  have round := decodeComponent_encodeComponent h
  -- A name the decoder leaves alone is the component's own, and that one is encoded.
  have self : ∀ d : String, decodeComponent d = .ok d → encodeComponent d ≠ d →
      utf8 (encodeComponent c) ≠ utf8 d := by
    intro d hd hne he
    rw [utf8_inj.mp he, hd] at round
    obtain rfl := Except.ok.inj round
    exact hne (utf8_inj.mp he)
  have byte : ∀ b ∈ utf8 (encodeComponent c), b < 0x80 →
      b ≠ 0x2F ∧ b ≠ 0x5C ∧ 0x20 ≤ b ∧ b ≠ 0x7F := by
    intro b hb low
    obtain ⟨x, hx, hxb⟩ := char_of_ascii_byte hb low
    obtain ⟨slash, back, control, del⟩ := safeChar_encodeComponent h x hx
    have ne : ∀ m : UInt8, x ≠ Char.ofNat m.toNat → b ≠ m := by
      rintro m hm rfl
      exact hm (by rw [← hxb, Char.ofNat_toNat])
    refine ⟨ne 0x2F slash, ne 0x5C back, ?_, ?_⟩
    · rw [UInt8.le_iff_toNat_le, ← hxb]
      exact control
    · rintro rfl
      exact del hxb
  have high : ∀ b : UInt8, ¬ b < 0x80 → b ≠ 0x2F ∧ b ≠ 0x5C ∧ 0x20 ≤ b ∧ b ≠ 0x7F := by
    intro b hb
    refine ⟨?_, ?_, ?_, ?_⟩
    · rintro rfl
      exact hb (by decide)
    · rintro rfl
      exact hb (by decide)
    · exact le_trans (by decide) (not_lt.mp hb)
    · rintro rfl
      exact hb (by decide)
  have all : ∀ b ∈ utf8 (encodeComponent c), b ≠ 0x2F ∧ b ≠ 0x5C ∧ 0x20 ≤ b ∧ b ≠ 0x7F := by
    intro b hb
    by_cases low : b < 0x80
    · exact byte b hb low
    · exact high b low
  constructor
  · exact self "" (by decide) (by decide)
  · exact ⟨self "." (by decide) (by decide), self ".." (by decide) (by decide)⟩
  · exact fun hm => (all _ hm).1 rfl
  · exact fun hm => (all _ hm).2.1 rfl
  · exact fun b hb => (all b hb).2.2
  · rintro ⟨rest, hrest⟩
    rw [utf8_eq_flatMap, utf8_eq_flatMap (encodeComponent c)] at hrest
    obtain ⟨more, hmore, -⟩ := chars_prefix hrest
    exact encodeComponent_not_reserved c ⟨more, hmore.symm⟩

/-! ## Whole keys -/

theorem not_slash_of_mem_components {key c : String} (h : c ∈ components key) : '/' ∉ c.toList := by
  obtain ⟨cs, hcs, rfl⟩ := List.mem_map.mp h
  rw [String.toList_ofList]
  exact not_mem_of_mem_splitOn hcs

theorem length_components (key : String) :
    (components key).length = key.toList.count '/' + 1 := by
  rw [components, List.length_map, length_splitOn]

theorem components_ne_nil (key : String) : components key ≠ [] := by
  simp [components]

theorem join_components (key : String) :
    String.ofList (['/'].intercalate ((components key).map String.toList)) = key := by
  have same : (components key).map String.toList = key.toList.splitOn '/' := by
    rw [components, List.map_map]
    exact (List.map_congr_left fun _ _ => String.toList_ofList).trans (List.map_id _)
  rw [same, List.intercalate_splitOn, String.ofList_toList]

theorem decodeName_encodeComponent {c : String} (h : '/' ∉ c.toList) :
    decodeName (utf8 (encodeComponent c)) = .ok c := by
  have plain := (plainName_encodeComponent h).notDot
  unfold decodeName
  rw [if_neg (not_or.mpr plain)]
  simp only [fromUtf8_utf8]
  exact decodeComponent_encodeComponent h

theorem mapM_decodeName {cs : List String} (h : ∀ c ∈ cs, '/' ∉ c.toList) :
    (cs.map fun c => utf8 (encodeComponent c)).mapM decodeName = .ok cs := by
  induction cs with
  | nil => rfl
  | cons c cs ih =>
      rw [List.map_cons, List.mapM_cons, decodeName_encodeComponent (h c (by simp)),
        ih fun d hd => h d (by simp [hd])]
      rfl

/-- **The key of a key's path is the key.** -/
theorem relPathToKey_keyToRelPath (key : String) :
    relPathToKey (keyToRelPath key) = .ok key := by
  unfold relPathToKey keyToRelPath
  rw [List.reverse_reverse, mapM_decodeName fun c hc => not_slash_of_mem_components hc]
  change Except.ok _ = _
  rw [join_components]

theorem keyToRelPath_injective : Function.Injective keyToRelPath := by
  intro k k' h
  have hk := relPathToKey_keyToRelPath k
  rw [h, relPathToKey_keyToRelPath] at hk
  exact (Except.ok.inj hk).symm

theorem keyToRelPath_ne_nil (key : String) : keyToRelPath key ≠ [] := by
  simp [keyToRelPath, components_ne_nil]

/-- The names on a key's path are encoded components. -/
theorem mem_keyToRelPath {key : String} {n : OsName} (h : n ∈ keyToRelPath key) :
    ∃ c, '/' ∉ c.toList ∧ n = utf8 (encodeComponent c) := by
  rw [keyToRelPath, List.mem_reverse, List.mem_map] at h
  obtain ⟨c, hc, rfl⟩ := h
  exact ⟨c, not_slash_of_mem_components hc, rfl⟩

/-- Any slash-free components, one at least, are those of a key. -/
theorem exists_components {cs : List String} (hne : cs ≠ []) (h : ∀ c ∈ cs, '/' ∉ c.toList) :
    ∃ key, components key = cs := by
  refine ⟨String.ofList (['/'].intercalate (cs.map String.toList)), ?_⟩
  rw [components, String.toList_ofList, List.splitOn_intercalate, List.map_map]
  · exact (List.map_congr_left fun c _ => String.ofList_toList).trans (List.map_id _)
  · intro l hl
    obtain ⟨c, hc, rfl⟩ := List.mem_map.mp hl
    exact h c hc
  · simpa using hne

/-- **The directory above a key's is the top of the tree or another key's.** -/
theorem keyToRelPath_tail {key : String} {n : OsName} {rel : Path OsName}
    (h : keyToRelPath key = n :: rel) : rel = [] ∨ ∃ key', rel = keyToRelPath key' := by
  have hc : (components key).map (fun c => utf8 (encodeComponent c)) = rel.reverse ++ [n] := by
    rw [← List.reverse_cons, ← h, keyToRelPath, List.reverse_reverse]
  obtain ⟨cs, last, hsplit, hcs, -⟩ := List.map_eq_append_iff.mp hc
  cases cs with
  | nil =>
      left
      simpa using hcs
  | cons c cs =>
      right
      have hslash : ∀ d ∈ c :: cs, '/' ∉ d.toList := by
        intro d hd
        have hmem : d ∈ components key := by
          rw [hsplit]
          exact List.mem_append_left _ hd
        exact not_slash_of_mem_components hmem
      obtain ⟨key', hkey⟩ := exists_components (by simp) hslash
      refine ⟨key', ?_⟩
      rw [keyToRelPath, hkey, hcs, List.reverse_reverse]

end Aks3.Engine
