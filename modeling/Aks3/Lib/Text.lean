import Mathlib

/-!
# UTF-8 text seen as bytes

A Rust `str` is a byte string that happens to be UTF-8, and most of what the
standard library does with one (comparing, searching, slicing) is done on the
bytes. Lean's `String` is the same type with the same invariant; this module
gives its byte view and the facts that connect the two.

`utf8` is injective (`utf8_inj`), and `fromUtf8` inverts it exactly
(`fromUtf8_eq_some`). The bytes of a character are a first byte followed by
continuation bytes only, so a place in a text that is followed by a first byte
is a character boundary (`chars_cut`), a text that is a byte prefix of another
is a character prefix of it (`chars_prefix`), and an occurrence of one text in
another begins and ends at a boundary (`occurrence_chars`). Slicing at such a
place cannot fail.

`find` is the first place a byte string occurs in another, as `str::find`
searches for one. Cutting a text after the first delimiter past a prefix gives
its shortest part that goes on from the prefix to the end of a delimiter
(`find_eq_shortestCut`).
-/

set_option autoImplicit false

namespace Aks3.Lib

abbrev Bytes := List UInt8

/-- The bytes of a text. -/
def utf8 (s : String) : Bytes := s.toByteArray.data.toList

/-- Bytes are ordered as numbers, and so byte strings by their first difference. -/
instance linearOrderByte : LinearOrder UInt8 where
  le_refl := UInt8.le_refl
  le_trans := fun _ _ _ => UInt8.le_trans
  lt_iff_le_not_ge := fun a b => by
    rw [UInt8.lt_iff_toNat_lt, UInt8.le_iff_toNat_le, UInt8.le_iff_toNat_le]
    omega
  le_antisymm := fun _ _ => UInt8.le_antisymm
  le_total := UInt8.le_total
  toDecidableLE := inferInstance
  toDecidableEq := inferInstance
  toDecidableLT := inferInstance

/-- The order of `str`. -/
def strLe (s t : String) : Prop := utf8 s ≤ utf8 t

instance : DecidableRel strLe := fun s t => inferInstanceAs (Decidable (utf8 s ≤ utf8 t))

instance : IsTrans String strLe := ⟨fun _ _ _ => le_trans⟩

instance : Std.Total strLe := ⟨fun s t => le_total (utf8 s) (utf8 t)⟩

/-- The text a byte string is the UTF-8 of, if it is valid. -/
def fromUtf8 (bs : Bytes) : Option String := String.fromUTF8? ⟨bs.toArray⟩

theorem utf8_eq_flatMap (s : String) : utf8 s = s.toList.flatMap String.utf8EncodeChar := by
  have h : s.toByteArray = s.toList.utf8Encode := by
    rw [← String.toByteArray_ofList, String.ofList_toList]
  rw [utf8, h, List.utf8Encode, List.data_toByteArray, List.toList_toArray]

theorem utf8_ofList (cs : List Char) :
    utf8 (String.ofList cs) = cs.flatMap String.utf8EncodeChar := by
  rw [utf8_eq_flatMap, String.toList_ofList]

theorem utf8_inj {s t : String} : utf8 s = utf8 t ↔ s = t := by
  constructor
  · intro h
    apply String.toByteArray_inj.mp
    apply ByteArray.ext
    exact Array.toList_inj.mp h
  · rintro rfl
    rfl

instance : Std.Antisymm strLe := ⟨fun _ _ h h' => utf8_inj.mp (le_antisymm h h')⟩

theorem utf8_append (s t : String) : utf8 (s ++ t) = utf8 s ++ utf8 t := by
  simp [utf8, String.toByteArray_append]

@[simp] theorem utf8_empty : utf8 "" = [] := by decide

theorem utf8_eq_nil {s : String} : utf8 s = [] ↔ s = "" := by
  rw [← utf8_empty, utf8_inj]

theorem fromUtf8_eq_some {bs : Bytes} {s : String} : fromUtf8 bs = some s ↔ utf8 s = bs := by
  unfold fromUtf8 String.fromUTF8?
  constructor
  · intro h
    split at h
    · cases h
      rfl
    · cases h
  · rintro rfl
    have valid : (⟨(utf8 s).toArray⟩ : ByteArray) = s.toByteArray := by
      simp [utf8]
    rw [dif_pos (valid ▸ s.isValidUTF8)]
    simp only [Option.some.injEq]
    apply String.toByteArray_inj.mp
    exact valid

@[simp] theorem fromUtf8_utf8 (s : String) : fromUtf8 (utf8 s) = some s :=
  fromUtf8_eq_some.mpr rfl

/-! ## Character boundaries -/

/-- The first byte of a text is the first byte of a character. -/
theorem first_of_chars {c : Char} {cs : List Char} {b : UInt8} {r : Bytes}
    (h : (c :: cs).flatMap String.utf8EncodeChar = b :: r) : b.IsUTF8FirstByte := by
  have pos : 0 < (String.utf8EncodeChar c).length := by
    simp [Char.utf8Size_pos]
  have head : (String.utf8EncodeChar c)[0] = b := by
    have h0 := congrArg (fun l => l[0]?) h
    simpa [List.flatMap_cons, List.getElem?_append_left pos, List.getElem?_eq_getElem pos] using h0
  rw [← head]
  exact UInt8.isUTF8FirstByte_getElem_utf8EncodeChar.mpr rfl

/-- Two characters at the head of one text are the same character. -/
theorem encodeChar_append_inj {c c' : Char} {r r' : Bytes}
    (h : String.utf8EncodeChar c ++ r = String.utf8EncodeChar c' ++ r') : c = c' ∧ r = r' := by
  have first := ByteArray.utf8DecodeChar?_utf8EncodeChar_append (b := r.toByteArray) (c := c)
  have second := ByteArray.utf8DecodeChar?_utf8EncodeChar_append (b := r'.toByteArray) (c := c')
  rw [← List.toByteArray_append, h, List.toByteArray_append, second] at first
  obtain rfl : c' = c := by simpa using first
  exact ⟨rfl, List.append_cancel_left h⟩

/-- **A place followed by a first byte is a character boundary.** -/
theorem chars_cut : ∀ {cs : List Char} {x : Bytes} {b : UInt8} {y : Bytes},
    cs.flatMap String.utf8EncodeChar = x ++ b :: y → b.IsUTF8FirstByte →
      ∃ front back, cs = front ++ back ∧ x = front.flatMap String.utf8EncodeChar ∧
        b :: y = back.flatMap String.utf8EncodeChar
  | [], x, b, y, h, _ => by simp at h
  | c :: cs, x, b, y, h, hb => by
      rw [List.flatMap_cons] at h
      rcases List.append_eq_append_iff.mp h with ⟨rest, hx, hy⟩ | ⟨rest, hc, hy⟩
      · obtain ⟨front, back, rfl, hfront, hback⟩ := chars_cut hy hb
        exact ⟨c :: front, back, rfl, by rw [hx, hfront, List.flatMap_cons], hback⟩
      · cases x with
        | nil => exact ⟨[], c :: cs, rfl, rfl, by rw [List.flatMap_cons, h, List.nil_append]⟩
        | cons x0 x =>
            cases rest with
            | nil =>
                obtain ⟨front, back, rfl, hfront, hback⟩ :=
                  chars_cut (x := []) (by simpa using hy.symm) hb
                refine ⟨c :: front, back, rfl, ?_, hback⟩
                rw [List.flatMap_cons, ← hfront, List.append_nil, hc, List.append_nil]
            | cons r0 rest =>
                -- `b` would be a later byte of the character `c`
                obtain ⟨rfl, -⟩ := List.cons_eq_cons.mp hy
                have hlt : x.length + 1 < (String.utf8EncodeChar c).length := by
                  rw [hc]
                  simp
                have hbyte : (String.utf8EncodeChar c)[x.length + 1] = b := by
                  simp [hc]
                rw [← hbyte] at hb
                exact absurd (UInt8.isUTF8FirstByte_getElem_utf8EncodeChar.mp hb) (by omega)

/-- A byte prefix of a text that is itself a text is a character prefix. -/
theorem chars_prefix : ∀ {ps cs : List Char} {y : Bytes},
    ps.flatMap String.utf8EncodeChar ++ y = cs.flatMap String.utf8EncodeChar →
      ∃ rest, cs = ps ++ rest ∧ y = rest.flatMap String.utf8EncodeChar
  | [], cs, y, h => ⟨cs, rfl, by simpa using h⟩
  | p :: ps, [], y, h => by
      rw [List.flatMap_cons, List.append_assoc, List.flatMap_nil] at h
      have hlen := congrArg List.length h
      have pos := Char.utf8Size_pos p
      simp at hlen
      omega
  | p :: ps, c :: cs, y, h => by
      rw [List.flatMap_cons, List.flatMap_cons, List.append_assoc] at h
      obtain ⟨rfl, htail⟩ := encodeChar_append_inj h
      obtain ⟨rest, rfl, hy⟩ := chars_prefix htail
      exact ⟨rest, rfl, hy⟩

/-! ## Searching -/

/-- The first place at which `pat` occurs, as `str::find` looks for a string. -/
def find (pat : Bytes) : Bytes → Option Nat
  | [] => if pat.isPrefixOf [] then some 0 else none
  | b :: s => if pat.isPrefixOf (b :: s) then some 0 else (find pat s).map (· + 1)

theorem find_occurs {pat : Bytes} : ∀ {s : Bytes} {i : Nat}, find pat s = some i →
    pat <+: s.drop i ∧ ∀ j < i, ¬ pat <+: s.drop j
  | [], i, h => by
      simp only [find] at h
      split at h
      · rename_i found
        cases h
        exact ⟨by simpa using found, by simp⟩
      · cases h
  | b :: s, i, h => by
      simp only [find] at h
      split at h
      · rename_i found
        cases h
        exact ⟨List.isPrefixOf_iff_prefix.mp found, by simp⟩
      · rename_i missed
        obtain ⟨k, hk, rfl⟩ := Option.map_eq_some_iff.mp h
        obtain ⟨here, before⟩ := find_occurs hk
        refine ⟨by simpa using here, ?_⟩
        intro j hj
        cases j with
        | zero => simpa [List.isPrefixOf_iff_prefix] using missed
        | succ j => simpa using before j (by omega)

theorem find_eq_none {pat : Bytes} : ∀ {s : Bytes}, find pat s = none →
    ∀ j ≤ s.length, ¬ pat <+: s.drop j
  | [], h, j, hj => by
      simp only [find] at h
      split at h
      · cases h
      · rename_i missed
        simpa [List.isPrefixOf_iff_prefix] using missed
  | b :: s, h, j, hj => by
      simp only [find] at h
      split at h
      · cases h
      · rename_i missed
        cases j with
        | zero => simpa [List.isPrefixOf_iff_prefix] using missed
        | succ j =>
            simp only [Option.map_eq_none_iff] at h
            simpa using find_eq_none h j (by simpa using hj)

/-- **An occurrence of a text in a text is one of its characters**, when the search
starts after a matched prefix. -/
theorem occurrence_chars {s pre d : String} {i : Nat} (hp : utf8 pre <+: utf8 s)
    (hf : find (utf8 d) ((utf8 s).drop (utf8 pre).length) = some i) :
    ∃ mid rest, s.toList = pre.toList ++ mid ++ d.toList ++ rest ∧
      (mid.flatMap String.utf8EncodeChar).length = i := by
  obtain ⟨y, hy⟩ := hp
  obtain ⟨⟨z, hz⟩, -⟩ := find_occurs hf
  rw [← hy, List.drop_left] at hz
  rw [utf8_eq_flatMap pre, utf8_eq_flatMap s] at hy
  obtain ⟨rest, hs, hrest⟩ := chars_prefix hy
  have whole : utf8 s = utf8 pre ++ y := by
    rw [utf8_eq_flatMap pre, hy, utf8_eq_flatMap s]
  cases hd : utf8 d with
  | nil =>
      -- the empty text is found at once
      have zero : i = 0 := by
        rw [hd, find.eq_def] at hf
        split at hf <;> simpa [eq_comm] using hf
      refine ⟨[], rest, ?_, by simp [zero]⟩
      simp [hs, utf8_eq_nil.mp hd]
  | cons b bs =>
      have hi : i < y.length := by
        by_contra hlt
        rw [List.drop_of_length_le (by omega), hd] at hz
        exact absurd hz (by simp)
      have cut : rest.flatMap String.utf8EncodeChar = y.take i ++ b :: (bs ++ z) := by
        rw [← hrest, ← List.cons_append, ← hd, hz, List.take_append_drop]
      have dchars : d.toList.flatMap String.utf8EncodeChar = b :: bs := by
        rw [← utf8_eq_flatMap, hd]
      have hfirst : b.IsUTF8FirstByte := by
        cases hc : d.toList with
        | nil => simp [hc] at dchars
        | cons c cs => exact first_of_chars (hc ▸ dchars)
      obtain ⟨front, back, rfl, hfront, hback⟩ := chars_cut cut hfirst
      have dprefix : d.toList.flatMap String.utf8EncodeChar ++ z =
          back.flatMap String.utf8EncodeChar := by
        rw [dchars, ← hback, List.cons_append]
      obtain ⟨rest', rfl, -⟩ := chars_prefix dprefix
      refine ⟨front, rest', ?_, ?_⟩
      · rw [hs, List.append_assoc, List.append_assoc]
      · rw [← hfront, List.length_take]
        omega

/-- What is cut off after such an occurrence is a text. -/
theorem occurrence_valid {s pre d : String} {i : Nat} (hp : utf8 pre <+: utf8 s)
    (hf : find (utf8 d) ((utf8 s).drop (utf8 pre).length) = some i) :
    ∃ t, utf8 t = (utf8 s).take ((utf8 pre).length + i + (utf8 d).length) := by
  obtain ⟨mid, rest, hs, rfl⟩ := occurrence_chars hp hf
  refine ⟨String.ofList (pre.toList ++ mid ++ d.toList), ?_⟩
  rw [utf8_eq_flatMap s, hs, utf8_ofList]
  simp only [utf8_eq_flatMap, List.flatMap_append, List.append_assoc]
  rw [Nat.add_assoc, List.take_length_add_append, List.take_length_add_append, List.take_left]

/-- The shortest initial part of `s` that goes on from `pre` to the end of a `d`. -/
def shortestCut (pre d s : String) : Option String :=
  ((List.range (s.toList.length + 1)).find? fun n =>
    decide (pre.toList <+: s.toList.take n ∧
      d.toList <:+ (s.toList.take n).drop pre.toList.length)).map
      fun n => String.ofList (s.toList.take n)

/-- Where a part that goes on from `pre` to the end of a `d` has its `d`. -/
theorem occurs_of_cut {s pre d : String} {n : Nat} (hp : pre.toList <+: s.toList.take n)
    (hd : d.toList <:+ (s.toList.take n).drop pre.toList.length) :
    ∃ mid, s.toList.take n = pre.toList ++ mid ++ d.toList ∧
      utf8 d <+: ((utf8 s).drop (utf8 pre).length).drop
        (mid.flatMap String.utf8EncodeChar).length := by
  obtain ⟨x, hx⟩ := hp
  rw [← hx, List.drop_left] at hd
  obtain ⟨mid, hmid⟩ := hd
  have htake : s.toList.take n = pre.toList ++ mid ++ d.toList := by
    rw [← hx, ← hmid, List.append_assoc]
  refine ⟨mid, htake, ?_⟩
  have hs : utf8 s = utf8 pre ++ (mid.flatMap String.utf8EncodeChar ++
      (utf8 d ++ (s.toList.drop n).flatMap String.utf8EncodeChar)) := by
    have hsplit := List.take_append_drop n s.toList
    generalize s.toList.drop n = tail at hsplit ⊢
    rw [utf8_eq_flatMap s, ← hsplit, htake]
    simp [utf8_eq_flatMap, List.append_assoc]
  rw [hs, List.drop_left, List.drop_left]
  exact List.prefix_append _ _

/-- **The first delimiter found past the prefix ends the shortest such part.** -/
theorem find_eq_shortestCut {s pre d : String} (hp : utf8 pre <+: utf8 s) :
    ((find (utf8 d) ((utf8 s).drop (utf8 pre).length)).bind fun i =>
      fromUtf8 ((utf8 s).take ((utf8 pre).length + i + (utf8 d).length))) =
        shortestCut pre d s := by
  cases hf : find (utf8 d) ((utf8 s).drop (utf8 pre).length) with
  | none =>
      rw [Option.bind_none, shortestCut, eq_comm, Option.map_eq_none_iff, List.find?_eq_none]
      intro n _ hn
      obtain ⟨hpn, hdn⟩ := of_decide_eq_true hn
      obtain ⟨mid, -, hocc⟩ := occurs_of_cut hpn hdn
      by_cases hlen : (mid.flatMap String.utf8EncodeChar).length ≤
          ((utf8 s).drop (utf8 pre).length).length
      · exact find_eq_none hf _ hlen hocc
      · rw [List.drop_of_length_le (by omega), List.prefix_nil] at hocc
        exact find_eq_none hf 0 (Nat.zero_le _) (hocc ▸ List.nil_prefix)
  | some i =>
      obtain ⟨mid, rest, hs, hi⟩ := occurrence_chars hp hf
      have htake : s.toList.take (pre.toList ++ mid ++ d.toList).length =
          pre.toList ++ mid ++ d.toList := by rw [hs, List.take_left]
      have hfind : (List.range (s.toList.length + 1)).find? (fun n =>
          decide (pre.toList <+: s.toList.take n ∧
            d.toList <:+ (s.toList.take n).drop pre.toList.length)) =
          some (pre.toList ++ mid ++ d.toList).length := by
        rw [List.find?_range_eq_some]
        refine ⟨?_, ?_, ?_⟩
        · rw [htake, List.append_assoc, List.drop_left]
          exact decide_eq_true ⟨List.prefix_append _ _, List.suffix_append _ _⟩
        · rw [List.mem_range, hs]
          simp only [List.length_append]
          omega
        · -- a shorter part would have its delimiter before the first one
          intro n hn
          simp only [Bool.not_eq_true', decide_eq_false_iff_not]
          rintro ⟨hpn, hdn⟩
          obtain ⟨mid', htake', hocc⟩ := occurs_of_cut hpn hdn
          refine (find_occurs hf).2 _ ?_ hocc
          have hlt : mid'.length < mid.length := by
            have hlen := congrArg List.length htake'
            have hlen' := congrArg List.length hs
            simp only [List.length_take, List.length_append] at hlen hlen' hn
            omega
          have hpre : mid' <+: mid := by
            have h' : pre.toList ++ (mid' ++ d.toList) <+: pre.toList ++
                (mid ++ (d.toList ++ rest)) := by
              rw [← List.append_assoc, ← htake', ← List.append_assoc, ← List.append_assoc, ← hs]
              exact List.take_prefix _ _
            exact List.prefix_of_prefix_length_le
              ((List.prefix_append _ _).trans ((List.prefix_append_right_inj _).mp h'))
              (List.prefix_append _ _) hlt.le
          obtain ⟨more, rfl⟩ := hpre
          cases more with
          | nil => simp at hlt
          | cons c more =>
              have hpos := Char.utf8Size_pos c
              simp only [List.flatMap_append, List.flatMap_cons, List.length_append,
                String.length_utf8EncodeChar] at hi
              omega
      rw [shortestCut, hfind, Option.bind_some, Option.map_some, htake, fromUtf8_eq_some,
        utf8_eq_flatMap s, hs, utf8_ofList, ← hi]
      simp only [utf8_eq_flatMap, List.flatMap_append, List.append_assoc]
      rw [Nat.add_assoc, List.take_length_add_append, List.take_length_add_append, List.take_left]

/-! ## Splitting -/

theorem not_mem_of_mem_splitOn {α : Type} [DecidableEq α] {sep : α} :
    ∀ {xs piece : List α}, piece ∈ xs.splitOn sep → sep ∉ piece
  | [], piece, h => by
      rw [List.splitOn_nil, List.mem_singleton] at h
      simp [h]
  | x :: xs, piece, h => by
      rw [List.splitOn_cons_eq_if_modifyHead] at h
      split at h
      · rcases List.mem_cons.mp h with rfl | h
        · simp
        · exact not_mem_of_mem_splitOn h
      · rename_i hx
        cases hs : xs.splitOn sep with
        | nil => exact absurd hs (List.splitOn_ne_nil sep xs)
        | cons first rest =>
            rw [hs, List.modifyHead_cons] at h
            rcases List.mem_cons.mp h with rfl | h
            · have ih : sep ∉ first := not_mem_of_mem_splitOn (hs ▸ List.mem_cons_self)
              have ne : x ≠ sep := by simpa using hx
              simp [ih, ne.symm]
            · exact not_mem_of_mem_splitOn (hs ▸ List.mem_cons_of_mem first h)

/-- There is one piece more than there are separators. -/
theorem length_splitOn {α : Type} [DecidableEq α] (sep : α) (xs : List α) :
    (xs.splitOn sep).length = xs.count sep + 1 := by
  induction xs with
  | nil => simp
  | cons x xs ih =>
      rw [List.splitOn_cons_eq_if_modifyHead, List.count_cons]
      split
      · rw [List.length_cons, ih]
      · rw [List.length_modifyHead, ih, Nat.add_zero]

/-! ## ASCII -/

/-- `u8::to_ascii_lowercase`. -/
def asciiLower (b : UInt8) : UInt8 := if 0x41 ≤ b ∧ b ≤ 0x5A then b + 0x20 else b

/-- `str::eq_ignore_ascii_case`. -/
def eqIgnoreAsciiCase (a b : Bytes) : Bool := a.map asciiLower = b.map asciiLower

/-- The bytes `str::trim` takes off an ASCII text. -/
def isAsciiSpace (b : UInt8) : Bool := b = 0x20 || (0x09 ≤ b && b ≤ 0x0D)

/-- `str::trim` on an ASCII text. -/
def trimAscii (s : Bytes) : Bytes := (s.dropWhile isAsciiSpace).rdropWhile isAsciiSpace

/-- `str::strip_prefix`. -/
def stripLead (lead s : Bytes) : Option Bytes :=
  if lead <+: s then some (s.drop lead.length) else none

end Aks3.Lib
