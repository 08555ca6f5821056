import Aks3.Engine.Paths
import Aks3.Server.Host

/-!
# Domains that do not overlap

`virtual_host_domains` compares the texts of two domains, while a host is under a domain label
by label. The comparison is the stricter of the two: it also refuses a domain that ends with
another one in the middle of a label. `virtualHostDomains_exact_iff` says for which lists that
makes no difference. Either way no host is under two accepted domains, so the bucket of a host
does not depend on the order of the list (`bucketOf_exact`).
-/

set_option autoImplicit false

namespace Aks3.Server

open Lib Engine

/-! ## Lowercase -/

theorem utf8EncodeChar_toLower (c : Char) :
    String.utf8EncodeChar c.toLower = (String.utf8EncodeChar c).map asciiLower := by
  by_cases ascii : isAscii c = true
  · have small : c.toNat < 128 := by simpa [isAscii] using ascii
    have each : ∀ n : Fin 128, String.utf8EncodeChar (Char.ofNat n).toLower =
        (String.utf8EncodeChar (Char.ofNat n)).map asciiLower := by decide +kernel
    have at_c := each ⟨c.toNat, small⟩
    rwa [Char.ofNat_toNat] at at_c
  · have large : 128 ≤ c.toNat := by simpa [isAscii] using ascii
    have same : c.toLower = c := by
      rw [Char.toLower]
      refine dif_neg ?_
      rintro ⟨-, high⟩
      have : c.toNat ≤ 90 := high
      omega
    have high := high_of_not_ascii (Bool.eq_false_of_not_eq_true ascii)
    rw [same]
    conv_lhs => rw [← List.map_id (String.utf8EncodeChar c)]
    refine List.map_congr_left fun b hb => ?_
    have hb' := high b hb
    have fixed : ∀ b : UInt8, 0x80 ≤ b → asciiLower b = b := by
      apply forall_uint8
      decide +kernel
    exact (fixed b hb').symm

theorem utf8_toAsciiLowercase (s : String) : utf8 (toAsciiLowercase s) =
    (utf8 s).map asciiLower := by
  rw [toAsciiLowercase, utf8_ofList, utf8_eq_flatMap, List.map_flatMap, List.flatMap_map]
  exact List.flatMap_congr fun c _ => utf8EncodeChar_toLower c

theorem asciiLower_idem : ∀ b : UInt8, asciiLower (asciiLower b) = asciiLower b := by
  apply forall_uint8
  decide +kernel

theorem asciiLower_eq_dot : ∀ b : UInt8, asciiLower b = 0x2E ↔ b = 0x2E := by
  apply forall_uint8
  decide +kernel

/-! ## Hostnames -/

/-- The bytes of a hostname. -/
def isHostByte (b : UInt8) : Bool :=
  isAsciiDigit b || (0x41 ≤ b && b ≤ 0x5A) || (0x61 ≤ b && b ≤ 0x7A) || b = 0x2D || b = 0x2E

theorem hostBytes_of_isHostname {s : String} (h : isHostname s = true) :
    ∀ b ∈ utf8 s, isHostByte b = true := by
  rw [isHostname, Bool.and_eq_true, List.all_eq_true] at h
  intro b hb
  have join : [0x2E].intercalate ((utf8 s).splitOn 0x2E) = utf8 s := List.intercalate_splitOn _
  rw [← join] at hb
  have parts : ∀ labels : List Bytes, (∀ l ∈ labels, ∀ x ∈ l, isHostByte x = true) →
      ∀ x ∈ [0x2E].intercalate labels, isHostByte x = true := by
    intro labels
    induction labels with
    | nil =>
        intro _ x hx
        exact absurd hx List.not_mem_nil
    | cons l labels ih =>
        intro hl x hx
        cases labels with
        | nil =>
            rw [List.intercalate_singleton] at hx
            exact hl l (by simp) x hx
        | cons l' labels =>
            rw [List.intercalate_cons_cons] at hx
            rcases List.mem_append.mp hx with hx | hx
            · rcases List.mem_append.mp hx with hx | hx
              · exact hl l (by simp) x hx
              · rw [List.mem_singleton.mp hx]
                decide
            · exact ih (fun l hm => hl l (List.mem_cons_of_mem _ hm)) x hx
  refine parts _ (fun l hl x hx => ?_) b hb
  have label := h.2 l hl
  rw [Bool.and_eq_true, List.all_eq_true] at label
  have byte := label.2 x hx
  simp only [isHostByte, Bool.or_eq_true] at byte ⊢
  exact .inl byte

/-- The characters of a hostname are its bytes. -/
theorem char_of_isHostname {s : String} (h : isHostname s = true) {c : Char} (hc : c ∈ s.toList) :
    c.toNat < 128 ∧ isHostByte c.toNat.toUInt8 = true := by
  have bytes : ∀ b ∈ String.utf8EncodeChar c, isHostByte b = true := by
    intro b hb
    refine hostBytes_of_isHostname h b ?_
    rw [utf8_eq_flatMap]
    exact List.mem_flatMap.mpr ⟨c, hc, hb⟩
  have low : ∀ b : UInt8, isHostByte b = true → b < 0x80 := by
    apply forall_uint8
    decide +kernel
  by_cases ascii : isAscii c = true
  · refine ⟨by simpa [isAscii] using ascii, bytes _ ?_⟩
    rw [utf8EncodeChar_ascii ascii]
    exact List.mem_singleton_self _
  · have high := high_of_not_ascii (Bool.eq_false_of_not_eq_true ascii)
    cases he : String.utf8EncodeChar c with
    | nil =>
        have pos := Char.utf8Size_pos c
        have len := String.length_utf8EncodeChar c
        rw [he, List.length_nil] at len
        omega
    | cons b bs =>
        have hb : b ∈ String.utf8EncodeChar c := he ▸ List.mem_cons_self
        exact absurd (low b (bytes b hb)) (not_lt_of_ge (high b hb))

/-- What a character of a hostname is not. -/
theorem char_ne_of_isHostname {s : String} (h : isHostname s = true)
    {c : Char} (hc : c ∈ s.toList) :
    isWhitespace c = false ∧ c ≠ ',' ∧ c ≠ ':' := by
  obtain ⟨small, host⟩ := char_of_isHostname h hc
  have each : ∀ n : Fin 128, isHostByte (n : Nat).toUInt8 = true →
      isWhitespace (Char.ofNat n) = false ∧ Char.ofNat n ≠ ',' ∧ Char.ofNat n ≠ ':' := by
    decide +kernel
  have at_c := each ⟨c.toNat, small⟩ host
  rwa [Char.ofNat_toNat] at at_c

theorem trim_of_isHostname {s : String} (h : isHostname s = true) : trim s = s := by
  have plain : ∀ c ∈ s.toList, isWhitespace c = false := fun c hc => (char_ne_of_isHostname h hc).1
  have front : s.toList.dropWhile isWhitespace = s.toList := by
    cases hs : s.toList with
    | nil => rfl
    | cons c cs =>
        rw [List.dropWhile_cons_of_neg]
        simp [plain c (hs ▸ List.mem_cons_self)]
  rw [trim, front]
  have back : s.toList.rdropWhile isWhitespace = s.toList := by
    rw [List.rdropWhile_eq_self_iff]
    intro hne
    simp [plain _ (List.getLast_mem hne)]
  rw [back, String.ofList_toList]

theorem ne_empty_of_isHostname {s : String} (h : isHostname s = true) : s ≠ "" := by
  rintro rfl
  revert h
  decide

theorem isHostname_toAsciiLowercase {s : String} (h : isHostname s = true) :
    isHostname (toAsciiLowercase s) = true := by
  have splits : ∀ bs : Bytes, (bs.map asciiLower).splitOn 0x2E = (bs.splitOn 0x2E).map
      (·.map asciiLower) := by
    intro bs
    induction bs with
    | nil => rfl
    | cons b bs ih =>
        rw [List.map_cons, List.splitOn_cons_eq_if_modifyHead,
          List.splitOn_cons_eq_if_modifyHead, ih]
        by_cases hb : b = 0x2E
        · simp [hb, (asciiLower_eq_dot 0x2E).mpr rfl]
        · have hl : asciiLower b ≠ 0x2E := fun he => hb ((asciiLower_eq_dot b).mp he)
          simp only [beq_iff_eq, hb, hl, if_false]
          cases bs.splitOn 0x2E <;> rfl
  have byte : ∀ b : UInt8,
      (isAsciiDigit b || (0x41 ≤ b && b ≤ 0x5A) || (0x61 ≤ b && b ≤ 0x7A) || b = 0x2D) = true →
      (isAsciiDigit (asciiLower b) || (0x41 ≤ asciiLower b && asciiLower b ≤ 0x5A) ||
        (0x61 ≤ asciiLower b && asciiLower b ≤ 0x7A) || asciiLower b = 0x2D) = true := by
    apply forall_uint8
    decide +kernel
  rw [isHostname, Bool.and_eq_true, List.all_eq_true] at h ⊢
  rw [utf8_toAsciiLowercase, splits]
  refine ⟨by simpa using h.1, fun l hl => ?_⟩
  obtain ⟨label, hlabel, rfl⟩ := List.mem_map.mp hl
  have ok := h.2 label hlabel
  rw [Bool.and_eq_true, List.all_eq_true] at ok ⊢
  refine ⟨by simpa using ok.1, fun b hb => ?_⟩
  obtain ⟨x, hx, rfl⟩ := List.mem_map.mp hb
  exact byte x (ok.2 x hx)

/-! ## Which lists are accepted -/

theorem overlaps_eq_true {a b : String} :
    overlaps a b = true ↔ utf8 b <:+ utf8 a ∨ utf8 a <:+ utf8 b := by
  simp [overlaps]

theorem overlaps_comm (a b : String) : overlaps a b = overlaps b a := by
  rw [overlaps, overlaps, Bool.or_comm]

/-- The loop takes the listed domains after those it has, or refuses. -/
theorem checkDomains_eq_ok {domains listed accepted : List String} :
    checkDomains domains listed = .ok accepted ↔
      accepted = domains ++ listed ∧ (∀ d ∈ listed, isHostname d = true) ∧
        listed.Pairwise (fun a b => overlaps a b = false) ∧
        ∀ d ∈ listed, ∀ other ∈ domains, overlaps d other = false := by
  induction listed generalizing domains with
  | nil =>
      rw [checkDomains, Except.ok.injEq]
      simpa using eq_comm
  | cons domain listed ih =>
      rw [checkDomains]
      by_cases colon : ':' ∈ domain.toList
      · -- a name with a colon is no hostname
        rw [if_pos colon]
        refine iff_of_false nofun ?_
        rintro ⟨-, names, -⟩
        exact absurd rfl (char_ne_of_isHostname (names domain (by simp)) colon).2.2
      rw [if_neg colon]
      by_cases name : isHostname domain = true
      swap
      · rw [if_pos (by simpa using name)]
        refine iff_of_false nofun ?_
        rintro ⟨-, names, -⟩
        exact name (names domain (by simp))
      · rw [if_neg (by simp [name])]
        split
        next other found =>
          refine iff_of_false nofun ?_
          rintro ⟨-, -, -, apart⟩
          have clash : overlaps domain other = true := by simpa using List.find?_some found
          rw [apart domain (by simp) other (List.mem_of_find?_eq_some found)] at clash
          exact Bool.false_ne_true clash
        next none_found =>
          have fresh : ∀ other ∈ domains, overlaps domain other = false := by
            simpa using none_found
          rw [ih]
          simp only [List.append_assoc, List.singleton_append, List.mem_cons, forall_eq_or_imp,
            List.pairwise_cons, List.mem_append, List.not_mem_nil, or_false]
          constructor
          · rintro ⟨rfl, names, pairs, apart⟩
            refine ⟨rfl, ⟨name, names⟩, ⟨fun d hd => ?_, pairs⟩, fresh, fun d hd other ho => ?_⟩
            · rw [overlaps_comm]
              exact apart d hd domain (.inr rfl)
            · exact apart d hd other (.inl ho)
          · rintro ⟨rfl, ⟨-, names⟩, ⟨first, pairs⟩, -, apart⟩
            refine ⟨rfl, names, pairs, fun d hd other ho => ?_⟩
            rcases ho with ho | rfl
            · exact apart d hd other ho
            · rw [overlaps_comm]
              exact first d hd

/-- The domains a list of hostnames stands for, from the file or from the environment. -/
theorem listedDomains_file {names : List String} (hosts : ∀ d ∈ names, isHostname d = true) :
    listedDomains none (some names) = names.map toAsciiLowercase := by
  have same : (names.map fun domain => toAsciiLowercase (trim domain)) =
      names.map toAsciiLowercase :=
    List.map_congr_left fun d hd => by rw [trim_of_isHostname (hosts d hd)]
  rw [listedDomains, Option.getD_some, same, List.filter_eq_self]
  intro d hd
  obtain ⟨name, hname, rfl⟩ := List.mem_map.mp hd
  have := ne_empty_of_isHostname (isHostname_toAsciiLowercase (hosts name hname))
  simpa using this

/-- The list as the environment gives it: one text, with commas between the names. -/
def joined (names : List String) : String :=
  String.ofList ([','].intercalate (names.map String.toList))

theorem listedDomains_joined {names : List String} (hosts : ∀ d ∈ names, isHostname d = true)
    (file : Option (List String)) :
    listedDomains (some (joined names)) file = names.map toAsciiLowercase := by
  have kept : ((names.map trim).filter (· ≠ "")) = names := by
    have same : names.map trim = names := by
      conv_rhs => rw [← List.map_id names]
      exact List.map_congr_left fun d hd => trim_of_isHostname (hosts d hd)
    rw [same, List.filter_eq_self]
    intro d hd
    simpa using ne_empty_of_isHostname (hosts d hd)
  cases names with
  | nil => rfl
  | cons name names =>
      have parts : split ',' (joined (name :: names)) = name :: names := by
        rw [split, joined, String.toList_ofList, List.splitOn_intercalate ',' (fun l hl comma => ?_)
          (by simp), List.map_map]
        · simp
        · obtain ⟨d, hd, rfl⟩ := List.mem_map.mp hl
          exact (char_ne_of_isHostname (hosts d hd) comma).2.1 rfl
      rw [listedDomains, parts, kept]

/-- One listed domain is a label or more, a dot, and another one. -/
def Under (domain other : String) : Prop :=
  ∃ labels : Bytes, labels ≠ [] ∧ utf8 domain = labels ++ 0x2E :: utf8 other

/-- One listed domain is another one with something that does not end in a dot before it. -/
def EndsInsideLabel (domain other : String) : Prop :=
  ∃ front : Bytes, ∃ b : UInt8, b ≠ 0x2E ∧ utf8 domain = front ++ b :: utf8 other

theorem Under.suffix {a b : String} (h : Under a b) : utf8 b <:+ utf8 a ∧ a ≠ b := by
  obtain ⟨labels, hne, ha⟩ := h
  refine ⟨⟨labels ++ [0x2E], by rw [ha, List.append_assoc, List.singleton_append]⟩, ?_⟩
  rintro rfl
  have := congrArg List.length ha
  simp at this
  omega

/-- Of two hostnames one of which ends with the other, the first lies under the second or ends
inside a label. -/
theorem under_or_endsInsideLabel {a b : String} (ha : isHostname a = true) (hne : a ≠ b)
    (hs : utf8 b <:+ utf8 a) : Under a b ∨ EndsInsideLabel a b := by
  obtain ⟨front, hfront⟩ := hs
  rcases List.eq_nil_or_concat front with rfl | ⟨labels, x, rfl⟩
  · exact absurd (utf8_inj.mp (by simpa using hfront)).symm hne
  · have whole : utf8 a = labels ++ x :: utf8 b := by simpa using hfront.symm
    by_cases dot : x = 0x2E
    · subst dot
      refine .inl ⟨labels, ?_, whole⟩
      rintro rfl
      -- a hostname does not start with an empty label
      rw [isHostname, Bool.and_eq_true, List.all_eq_true, whole] at ha
      have first := ha.2 [] (by simp [List.splitOn_cons_eq_if_modifyHead])
      simp at first
    · exact .inr ⟨labels, x, dot, whole⟩

/-- The two sources a list of names can come from. -/
inductive Source : List String → Option String → Option (List String) → Prop
  | file (names : List String) : Source names none (some names)
  | env (names : List String) (file : Option (List String)) : Source names
      (some (joined names)) file

/-- Whether the configuration is accepted. -/
def Accepts (fromEnv : Option String) (fromFile : Option (List String)) : Prop :=
  ∃ domains, virtualHostDomains fromEnv fromFile = .ok domains

theorem accepts_iff {names : List String} (hosts : ∀ d ∈ names, isHostname d = true)
    {fromEnv : Option String} {fromFile : Option (List String)}
    (source : Source names fromEnv fromFile) :
    Accepts fromEnv fromFile ↔
      (names.map toAsciiLowercase).Pairwise fun a b => overlaps a b = false := by
  have listed : listedDomains fromEnv fromFile = names.map toAsciiLowercase := by
    cases source with
    | file => exact listedDomains_file hosts
    | env => exact listedDomains_joined hosts fromFile
  have lower : ∀ d ∈ names.map toAsciiLowercase, isHostname d = true := by
    intro d hd
    obtain ⟨name, hname, rfl⟩ := List.mem_map.mp hd
    exact isHostname_toAsciiLowercase (hosts name hname)
  rw [Accepts, virtualHostDomains, listed]
  constructor
  · rintro ⟨domains, h⟩
    exact (checkDomains_eq_ok.mp h).2.2.1
  · exact fun pairs => ⟨_, checkDomains_eq_ok.mpr ⟨rfl, lower, pairs, by simp⟩⟩

/-- A list is refused exactly when two of its domains overlap. -/
theorem pairwise_overlaps_iff {listed : List String} (distinct : listed.Nodup) :
    (listed.Pairwise fun a b => overlaps a b = false) ↔
      ∀ a ∈ listed, ∀ b ∈ listed, a ≠ b → ¬ utf8 b <:+ utf8 a := by
  constructor
  · intro pairs a ha b hb hne hs
    have : Std.Symm fun x y => overlaps x y = false := ⟨fun x y h => by rwa [overlaps_comm]⟩
    have clear := pairs.forall ha hb hne
    rw [overlaps_eq_true.mpr (.inl hs)] at clear
    exact Bool.false_ne_true clear.symm
  · intro apart
    refine distinct.imp_of_mem fun {a b} ha hb hne => ?_
    rw [← Bool.not_eq_true, overlaps_eq_true]
    rintro (hs | hs)
    · exact apart a ha b hb hne hs
    · exact apart b hb a ha hne.symm hs

/-- What is wanted of the check on `names`, from either source: it accepts the list exactly when no
listed domain lies under another one, in whatever order they are listed. -/
def OverlapCheckExact (names : List String) : Prop :=
  ∀ fromEnv fromFile, Source names fromEnv fromFile →
    (Accepts fromEnv fromFile ↔
      ¬ ∃ a ∈ names.map toAsciiLowercase, ∃ b ∈ names.map toAsciiLowercase, Under a b) ∧
    ∀ other, other.Perm names → ∀ fromEnv' fromFile', Source other fromEnv' fromFile' →
      (Accepts fromEnv' fromFile' ↔ Accepts fromEnv fromFile)

/-- The check is exact for the lists in which a domain that ends with another one does so at a
dot, and for those that it has to refuse anyway. -/
theorem virtualHostDomains_exact_iff (names : List String)
    (hosts : ∀ d ∈ names, isHostname d = true)
    (distinct : (names.map toAsciiLowercase).Nodup) :
    OverlapCheckExact names ↔
      (∃ a ∈ names.map toAsciiLowercase, ∃ b ∈ names.map toAsciiLowercase, Under a b) ∨
        ∀ a ∈ names.map toAsciiLowercase, ∀ b ∈ names.map toAsciiLowercase,
        ¬ EndsInsideLabel a b := by
  have lower : ∀ d ∈ names.map toAsciiLowercase, isHostname d = true := by
    intro d hd
    obtain ⟨name, hname, rfl⟩ := List.mem_map.mp hd
    exact isHostname_toAsciiLowercase (hosts name hname)
  constructor
  · intro exact_
    have here := ((exact_ _ _ (.file names)).1).symm.trans
      ((accepts_iff hosts (.file names)).trans (pairwise_overlaps_iff distinct))
    by_cases under : ∃ a ∈ names.map toAsciiLowercase, ∃ b ∈ names.map toAsciiLowercase, Under a b
    · exact .inl under
    · refine .inr fun a ha b hb inside => ?_
      obtain ⟨front, x, -, whole⟩ := inside
      refine here.mp under a ha b hb ?_ ⟨front ++ [x], by rw [whole]; simp⟩
      rintro rfl
      have := congrArg List.length whole
      simp at this
      omega
  · intro cond fromEnv fromFile source
    refine ⟨?_, fun other perm fromEnv' fromFile' source' => ?_⟩
    · rw [accepts_iff hosts source, pairwise_overlaps_iff distinct]
      constructor
      · rintro apart ⟨a, ha, b, hb, under⟩
        exact apart a ha b hb under.suffix.2 under.suffix.1
      · intro clear a ha b hb hne hs
        rcases under_or_endsInsideLabel (lower a ha) hne hs with under | inside
        · exact clear ⟨a, ha, b, hb, under⟩
        · rcases cond with under | none_inside
          · exact clear under
          · exact none_inside a ha b hb inside
    · rw [accepts_iff hosts source,
        accepts_iff (fun d hd => hosts d (perm.mem_iff.mp hd)) source']
      exact (perm.map toAsciiLowercase).pairwise_iff fun h => by rwa [overlaps_comm]

/-- Neither of two domains ends with the other. -/
theorem virtualHostDomains_exact_iff_two :
    OverlapCheckExact ["s3.example.com", "S3.example.org"] := by
  have apart : ∀ a ∈ ["s3.example.com", "S3.example.org"].map toAsciiLowercase,
      ∀ b ∈ ["s3.example.com", "S3.example.org"].map toAsciiLowercase,
        ∀ x : Fin 256, ¬ (UInt8.ofNat x :: utf8 b) <:+ utf8 a := by decide +kernel
  refine (virtualHostDomains_exact_iff _ (by decide) (by decide)).mpr (.inr ?_)
  rintro a ha b hb ⟨front, x, -, whole⟩
  have last := apart a ha b hb ⟨x.toNat, x.toNat_lt⟩
  rw [UInt8.ofNat_toNat] at last
  exact last ⟨front, whole.symm⟩

/-- `mys3.example.com` is refused beside `s3.example.com`, and no host is under both. -/
theorem virtualHostDomains_refuses_neighbour :
    (∀ d ∈ ["s3.example.com", "mys3.example.com"], isHostname d = true) ∧
      (["s3.example.com", "mys3.example.com"].map toAsciiLowercase).Nodup ∧
      virtualHostDomains none (some ["s3.example.com", "mys3.example.com"]) =
        .error ⟨"virtual_host_domains", "mys3.example.com and s3.example.com",
          "domains that do not overlap, so that a host under one of them names one bucket"⟩ ∧
      bucketOf ["s3.example.com"] "b.mys3.example.com" = some none ∧
      bucketOf ["mys3.example.com"] "b.s3.example.com" = some none ∧
      ¬ OverlapCheckExact ["s3.example.com", "mys3.example.com"] := by
  refine ⟨by decide, by decide, by decide, by decide, by decide, fun exact_ => ?_⟩
  have refused : ¬ Accepts none (some ["s3.example.com", "mys3.example.com"]) := by
    rintro ⟨domains, h⟩
    revert h
    simp [show virtualHostDomains none (some ["s3.example.com", "mys3.example.com"]) =
      .error ⟨"virtual_host_domains", "mys3.example.com and s3.example.com",
          "domains that do not overlap, so that a host under one of them names one bucket"⟩ by
        decide]
  refine refused ((exact_ _ _ (.file _)).1.mpr ?_)
  rintro ⟨a, ha, b, hb, labels, -, whole⟩
  have apart : ∀ a ∈ ["s3.example.com", "mys3.example.com"].map toAsciiLowercase,
      ∀ b ∈ ["s3.example.com", "mys3.example.com"].map toAsciiLowercase,
        ¬ (0x2E :: utf8 b) <:+ utf8 a := by decide
  exact apart a ha b hb ⟨labels, whole.symm⟩

/-! ## Slicing -/

theorem splitAt_eq_some {s front back : String} {i : Nat} :
    splitAt s i = some (front, back) ↔ s = front ++ back ∧ i = (utf8 front).length := by
  constructor
  · intro h
    rw [splitAt] at h
    split_ifs at h with boundary
    have inside : i ≤ (utf8 s).length := by
      rcases boundary with rfl | rfl | ⟨b, hb, -⟩
      · omega
      · omega
      · exact le_of_lt (List.getElem?_eq_some_iff.mp hb).1
    split at h
    next f b hf hb =>
      obtain ⟨rfl, rfl⟩ : f = front ∧ b = back := by simpa using h
      rw [fromUtf8_eq_some] at hf hb
      refine ⟨utf8_inj.mp ?_, ?_⟩
      · rw [utf8_append, hf, hb, List.take_append_drop]
      · rw [hf, List.length_take, min_eq_left inside]
    next => cases h
  · rintro ⟨rfl, rfl⟩
    have boundary : isCharBoundary (front ++ back) (utf8 front).length := by
      rw [isCharBoundary, utf8_append]
      cases hb : utf8 back with
      | nil => simp
      | cons b rest =>
          refine .inr (.inr ⟨b, by simp, ?_⟩)
          rw [utf8_eq_flatMap] at hb
          cases hc : back.toList with
          | nil => simp [hc] at hb
          | cons c cs => exact first_of_chars (hc ▸ hb)
    rw [splitAt, if_pos boundary, utf8_append, List.take_left, List.drop_left, fromUtf8_utf8,
      fromUtf8_utf8]

/-- Slicing at a character boundary does not panic. -/
theorem exists_splitAt {s : String} {i : Nat} (h : isCharBoundary s i) :
    ∃ front back, splitAt s i = some (front, back) := by
  suffices cut : ∃ front back, s = front ++ back ∧ i = (utf8 front).length by
    obtain ⟨front, back, hs⟩ := cut
    exact ⟨front, back, splitAt_eq_some.mpr hs⟩
  rcases h with rfl | rfl | ⟨b, hb, first⟩
  · exact ⟨"", s, by simp, by simp⟩
  · exact ⟨s, "", by simp, rfl⟩
  · obtain ⟨lt, at_i⟩ := List.getElem?_eq_some_iff.mp hb
    have whole : s.toList.flatMap String.utf8EncodeChar =
        (utf8 s).take i ++ b :: (utf8 s).drop (i + 1) := by
      rw [← utf8_eq_flatMap, ← at_i, List.cons_getElem_drop_succ, List.take_append_drop]
    obtain ⟨front, back, hs, hfront, -⟩ := chars_cut whole first
    refine ⟨String.ofList front, String.ofList back, ?_, ?_⟩
    · rw [← String.ofList_append, ← hs, String.ofList_toList]
    · rw [utf8_ofList, ← hfront, List.length_take, min_eq_left lt.le]

theorem stripSuffix_eq_some {c : Char} {s front : String} :
    stripSuffix c s = some front ↔ s.toList = front.toList ++ [c] := by
  rw [stripSuffix]
  constructor
  · intro h
    split at h
    next => cases h
    next last rest hs =>
      split_ifs at h with hc
      obtain rfl : String.ofList rest.reverse = front := by simpa using h
      rw [String.toList_ofList, ← hc, ← List.reverse_cons, ← hs, List.reverse_reverse]
  · intro h
    simp [h]

theorem rsplitOnce_eq_some {c : Char} {s head tail : String} :
    rsplitOnce c s = some (head, tail) ↔
      s.toList = head.toList ++ c :: tail.toList ∧ c ∉ tail.toList := by
  rw [rsplitOnce]
  have parts := List.takeWhile_append_dropWhile (p := fun x => decide (x ≠ c))
    (l := s.toList.reverse)
  constructor
  · intro h
    split at h
    next => cases h
    next x rest hs =>
      have hx : x = c := by
        have := List.head?_dropWhile_not (fun x => decide (x ≠ c)) s.toList.reverse
        rw [hs] at this
        simpa using this
      obtain ⟨rfl, rfl⟩ : String.ofList rest.reverse = head ∧
          String.ofList (s.toList.reverse.takeWhile fun x => decide (x ≠ c)).reverse = tail := by
        simpa using h
      rw [hs] at parts
      constructor
      · have whole := congrArg List.reverse parts
        rw [List.reverse_reverse] at whole
        refine whole.symm.trans ?_
        simp [hx]
      · rw [String.toList_ofList, List.mem_reverse]
        intro hc
        have := List.mem_takeWhile_imp hc
        simp at this
  · rintro ⟨hs, hc⟩
    have clear : ∀ x ∈ tail.toList.reverse, (decide (x ≠ c)) = true := by
      intro x hx
      have hx : x ∈ tail.toList := List.mem_reverse.mp hx
      simp only [decide_eq_true_eq]
      rintro rfl
      exact hc hx
    have reversed : s.toList.reverse = tail.toList.reverse ++ c :: head.toList.reverse := by
      simp [hs]
    rw [reversed, List.dropWhile_append_of_pos clear, List.takeWhile_append_of_pos clear]
    simp

/-! ## The bucket of a host -/

/-- What `stripDomainSuffix` looks for: `name` is `bucket`, a dot and the domain in any case. -/
def Matches (name domain bucket : String) : Prop :=
  bucket ≠ "" ∧ ∃ tail, name = bucket ++ "." ++ tail ∧
  toAsciiLowercase tail = toAsciiLowercase domain

theorem eqIgnoreAsciiCase_utf8 (s t : String) :
    eqIgnoreAsciiCase (utf8 s) (utf8 t) = true ↔ toAsciiLowercase s = toAsciiLowercase t := by
  rw [eqIgnoreAsciiCase, decide_eq_true_eq, ← utf8_toAsciiLowercase,
    ← utf8_toAsciiLowercase, utf8_inj]

theorem length_of_lower_eq {s t : String} (h : toAsciiLowercase s = toAsciiLowercase t) :
    (utf8 s).length = (utf8 t).length := by
  have := congrArg (fun x => (utf8 x).length) h
  simpa [utf8_toAsciiLowercase] using this

theorem toList_eq_append_dot {s front : String} : s.toList = front.toList ++ ['.'] ↔
    s = front ++ "." := by
  rw [← String.toList_inj, String.toList_append]
  rfl

/-- The slice of `strip_domain_suffix` is at a boundary, so it does not panic. -/
theorem stripDomainSuffix_ne_none (name domain : String) :
    stripDomainSuffix name domain ≠ none := by
  rw [stripDomainSuffix]
  dsimp only
  split_ifs with short out
  · exact Option.some_ne_none _
  · exact Option.some_ne_none _
  · obtain ⟨front, tail, cut⟩ := exists_splitAt (not_not.mp (not_or.mp out).2)
    rw [cut]
    simp only
    split_ifs
    · exact Option.some_ne_none _
    · split
      · exact Option.some_ne_none _
      · split_ifs <;> exact Option.some_ne_none _

theorem stripDomainSuffix_eq_some {name domain bucket : String} :
    stripDomainSuffix name domain = some (some bucket) ↔ Matches name domain bucket := by
  constructor
  · intro h
    rw [stripDomainSuffix] at h
    dsimp only at h
    split_ifs at h with short out
    · simp at h
    · simp at h
    · split at h
      next => cases h
      next front tail cut =>
        split_ifs at h with differ
        · simp at h
        · split at h
          next => simp at h
          next found strip =>
            split_ifs at h with empty
            · simp at h
            · obtain rfl : found = bucket := by simpa using h
              obtain ⟨rfl, -⟩ := splitAt_eq_some.mp cut
              rw [toList_eq_append_dot.mp (stripSuffix_eq_some.mp strip)]
              exact ⟨empty, tail, rfl, (eqIgnoreAsciiCase_utf8 _ _).mp (by simpa using differ)⟩
  · rintro ⟨hne, tail, rfl, hlow⟩
    have len := length_of_lower_eq hlow
    have total : (utf8 (bucket ++ "." ++ tail)).length =
        (utf8 (bucket ++ ".")).length + (utf8 domain).length := by
      rw [utf8_append, List.length_append, len]
    have cut : splitAt (bucket ++ "." ++ tail)
        ((utf8 (bucket ++ "." ++ tail)).length - (utf8 domain).length) =
          some (bucket ++ ".", tail) := by
      rw [splitAt_eq_some, total]
      exact ⟨rfl, by omega⟩
    have boundary : isCharBoundary (bucket ++ "." ++ tail)
        ((utf8 (bucket ++ "." ++ tail)).length - (utf8 domain).length) := by
      by_contra out
      rw [splitAt, if_neg out] at cut
      cases cut
    have dot : 0 < (utf8 (bucket ++ ".")).length := by
      rw [utf8_append, List.length_append]
      exact Nat.lt_add_left _ (by decide)
    have strip : stripSuffix '.' (bucket ++ ".") = some bucket :=
      stripSuffix_eq_some.mpr (toList_eq_append_dot.mpr rfl)
    rw [stripDomainSuffix, if_neg (by omega),
      if_neg (by rw [not_or]; exact ⟨by omega, not_not.mpr boundary⟩),
      cut]
    simp [(eqIgnoreAsciiCase_utf8 tail domain).mpr hlow, strip, hne]

theorem findBucket_ne_none (name : String) (domains : List String) :
    findBucket name domains ≠ none := by
  induction domains with
  | nil => exact Option.some_ne_none _
  | cons domain domains ih =>
      rw [findBucket]
      split
      next panic => exact absurd panic (stripDomainSuffix_ne_none name domain)
      next => exact Option.some_ne_none _
      next => exact ih

/-- The answer is a match with a listed domain; it is any of them when they all agree. -/
theorem findBucket_eq_some {name bucket : String} {domains : List String}
    (one : ∀ d ∈ domains, ∀ d' ∈ domains, ∀ b b', Matches name d b → Matches name d' b' → b = b') :
    findBucket name domains = some (some bucket) ↔ ∃ d ∈ domains, Matches name d bucket := by
  induction domains with
  | nil => simp [findBucket]
  | cons domain domains ih =>
      have tail := ih fun d hd d' hd' =>
        one d (List.mem_cons_of_mem _ hd) d' (List.mem_cons_of_mem _ hd')
      rw [findBucket]
      split
      next panic => exact absurd panic (stripDomainSuffix_ne_none name domain)
      next found strip =>
        have here := stripDomainSuffix_eq_some.mp strip
        constructor
        · intro h
          obtain rfl : found = bucket := by simpa using h
          exact ⟨domain, by simp, here⟩
        · rintro ⟨d, hd, hm⟩
          rw [one domain (by simp) d hd found bucket here hm]
      next strip =>
        have nothing : ∀ b, ¬ Matches name domain b := by
          intro b hm
          rw [stripDomainSuffix_eq_some.mpr hm] at strip
          simp at strip
        rw [tail]
        simp [nothing]

theorem lowercase_of_listed {fromEnv : Option String} {fromFile : Option (List String)} {d : String}
    (hd : d ∈ listedDomains fromEnv fromFile) : toAsciiLowercase d = d := by
  obtain ⟨name, rfl⟩ : ∃ name, d = toAsciiLowercase name := by
    cases fromEnv with
    | some text =>
        obtain ⟨name, -, rfl⟩ := List.mem_map.mp hd
        exact ⟨name, rfl⟩
    | none =>
        obtain ⟨name, -, rfl⟩ := List.mem_map.mp (List.mem_of_mem_filter hd)
        exact ⟨trim name, rfl⟩
  rw [← utf8_inj, utf8_toAsciiLowercase, utf8_toAsciiLowercase, List.map_map]
  exact List.map_congr_left fun b _ => asciiLower_idem b

/-- What the loop of `virtual_host_domains` leaves. -/
theorem accepted_spec {fromEnv : Option String} {fromFile : Option (List String)}
    {domains : List String} (h : virtualHostDomains fromEnv fromFile = .ok domains) :
    (∀ d ∈ domains, toAsciiLowercase d = d) ∧
      domains.Pairwise fun a b => overlaps a b = false := by
  obtain ⟨rfl, -, pairs, -⟩ := checkDomains_eq_ok.mp h
  exact ⟨fun d hd => lowercase_of_listed hd, pairs⟩

/-- Of two domains a name ends with, one ends with the other. -/
theorem overlaps_of_matches {name d d' b b' : String} (low : toAsciiLowercase d = d)
    (low' : toAsciiLowercase d' = d') (h : Matches name d b) (h' : Matches name d' b') :
    overlaps d d' = true := by
  obtain ⟨-, tail, hn, ht⟩ := h
  obtain ⟨-, tail', hn', ht'⟩ := h'
  have lowers : ∀ {x t e : String}, name = x ++ "." ++ t → toAsciiLowercase t = toAsciiLowercase e →
      toAsciiLowercase e = e → utf8 e <:+ utf8 (toAsciiLowercase name) := by
    intro x t e hx hte hlow
    refine ⟨(utf8 (x ++ ".")).map asciiLower, ?_⟩
    rw [← hlow, ← hte, hx, utf8_toAsciiLowercase, utf8_toAsciiLowercase,
      ← List.map_append, ← utf8_append]
  rw [overlaps_eq_true]
  exact (List.suffix_or_suffix_of_suffix (lowers hn ht low) (lowers hn' ht' low')).symm

/-- A name matches one listed domain at most, and in one way. -/
theorem matches_unique {domains : List String} {name : String}
    (low : ∀ d ∈ domains, toAsciiLowercase d = d)
    (pairs : domains.Pairwise fun a b => overlaps a b = false)
    {d d' b b' : String} (hd : d ∈ domains) (hd' : d' ∈ domains)
    (h : Matches name d b) (h' : Matches name d' b') : b = b' ∧ d = d' := by
  have : Std.Symm fun x y => overlaps x y = false := ⟨fun x y h => by rwa [overlaps_comm]⟩
  obtain rfl : d = d' := by
    by_contra hne
    have apart := pairs.forall hd hd' hne
    rw [overlaps_of_matches (low d hd) (low d' hd') h h'] at apart
    cases apart
  obtain ⟨-, tail, hn, ht⟩ := h
  obtain ⟨-, tail', hn', ht'⟩ := h'
  have len := length_of_lower_eq (ht.trans ht'.symm)
  have bytes := congrArg utf8 (hn.symm.trans hn')
  rw [utf8_append, utf8_append (b' ++ "."), utf8_append, utf8_append b'] at bytes
  have fronts := List.append_inj_left' (List.append_inj_left' bytes len) rfl
  exact ⟨utf8_inj.mp fronts, rfl⟩

/-- `host` is `head`, which is not empty, a colon and one digit or more. -/
def Ported (host head : String) : Prop :=
  head ≠ "" ∧ ∃ port, port ≠ "" ∧ (∀ b ∈ utf8 port, isAsciiDigit b = true) ∧
    host = head ++ ":" ++ port

/-- `name` is the host without its port. -/
def WithoutPort (host name : String) : Prop :=
  Ported host name ∨ ((∀ head, ¬ Ported host head) ∧ name = host)

theorem toList_eq_append_colon {s head port : String} :
    s.toList = head.toList ++ ':' :: port.toList ↔ s = head ++ ":" ++ port := by
  rw [← String.toList_inj, String.toList_append, String.toList_append, List.append_assoc]
  rfl

theorem colon_not_mem {port : String} (digits : ∀ b ∈ utf8 port, isAsciiDigit b = true) :
    ':' ∉ port.toList := by
  intro hc
  have hb : (0x3A : UInt8) ∈ utf8 port := by
    rw [utf8_eq_flatMap]
    exact List.mem_flatMap.mpr ⟨':', hc, by decide⟩
  exact absurd (digits _ hb) (by decide)

/-- Cutting at the last colon finds the port. -/
theorem hostWithoutPort_of_ported {host head : String} (h : Ported host head) :
    hostWithoutPort host = head := by
  obtain ⟨hhead, port, hport, digits, hs⟩ := h
  rw [hostWithoutPort, rsplitOnce_eq_some.mpr ⟨toList_eq_append_colon.mpr hs, colon_not_mem digits⟩]
  exact if_pos ⟨hport, List.all_eq_true.mpr digits, hhead⟩

theorem hostWithoutPort_of_not_ported {host : String} (h : ∀ head, ¬ Ported host head) :
    hostWithoutPort host = host := by
  rw [hostWithoutPort]
  split
  next head port cut =>
    refine if_neg fun isPort => h head ⟨isPort.2.2, port, isPort.1, ?_, ?_⟩
    · exact List.all_eq_true.mp isPort.2.1
    · exact toList_eq_append_colon.mp (rsplitOnce_eq_some.mp cut).1
  next => rfl

theorem withoutPort_iff {host name : String} : WithoutPort host name ↔
    name = hostWithoutPort host := by
  constructor
  · rintro (h | ⟨h, rfl⟩)
    · exact (hostWithoutPort_of_ported h).symm
    · exact (hostWithoutPort_of_not_ported h).symm
  · rintro rfl
    by_cases h : ∃ head, Ported host head
    · obtain ⟨head, h⟩ := h
      rw [hostWithoutPort_of_ported h]
      exact .inl h
    · have none_ := not_exists.mp h
      exact .inr ⟨none_, hostWithoutPort_of_not_ported none_⟩

/-- The bucket is a part of the name from its start on, and what follows it is, in lowercase, a dot
and the domain. -/
def BucketUnder (name domain bucket : String) : Prop :=
  bucket ≠ "" ∧ (∃ rest, name = bucket ++ rest) ∧
    toAsciiLowercase name = toAsciiLowercase bucket ++ "." ++ domain

theorem toAsciiLowercase_append (s t : String) :
    toAsciiLowercase (s ++ t) = toAsciiLowercase s ++ toAsciiLowercase t := by
  rw [← utf8_inj, utf8_append, utf8_toAsciiLowercase, utf8_toAsciiLowercase, utf8_toAsciiLowercase,
    utf8_append, List.map_append]

theorem eq_dot_of_toLower {c : Char} (h : c.toLower = '.') : c = '.' := by
  have bytes := utf8EncodeChar_toLower c
  rw [h, show String.utf8EncodeChar '.' = [0x2E] by decide] at bytes
  have same : String.utf8EncodeChar c = String.utf8EncodeChar '.' := by
    cases hc : String.utf8EncodeChar c with
    | nil =>
        rw [hc] at bytes
        cases bytes
    | cons b bs =>
        rw [hc, List.map_cons] at bytes
        obtain ⟨hb, hbs⟩ := List.cons_eq_cons.mp bytes
        rw [(asciiLower_eq_dot b).mp hb.symm, List.map_eq_nil_iff.mp hbs.symm]
        decide
  exact (encodeChar_append_inj (congrArg (· ++ []) same)).1

theorem bucketUnder_iff {name domain bucket : String} (low : toAsciiLowercase domain = domain) :
    BucketUnder name domain bucket ↔ Matches name domain bucket := by
  constructor
  · rintro ⟨hne, ⟨rest, rfl⟩, hlow⟩
    rw [toAsciiLowercase_append, String.append_assoc, String.append_right_inj] at hlow
    have chars := congrArg String.toList hlow
    rw [toAsciiLowercase, String.toList_ofList, String.toList_append,
      show ".".toList = ['.'] by decide, List.singleton_append] at chars
    obtain ⟨c, cs, hrest, hc, hcs⟩ := List.map_eq_cons_iff.mp chars
    have whole : rest = "." ++ String.ofList cs := by
      rw [← String.toList_inj, hrest, eq_dot_of_toLower hc]
      simp
    refine ⟨hne, String.ofList cs, by rw [whole, String.append_assoc], ?_⟩
    rw [low, toAsciiLowercase, String.toList_ofList, ← String.toList_inj, String.toList_ofList]
    exact hcs
  · rintro ⟨hne, tail, rfl, hlow⟩
    refine ⟨hne, ⟨"." ++ tail, String.append_assoc ..⟩, ?_⟩
    rw [toAsciiLowercase_append, toAsciiLowercase_append, hlow, low]
    rfl

theorem bucketOf_eq {host name : String} (h : WithoutPort host name) (domains : List String) :
    bucketOf domains host =
      if name.toList.head? = some '[' ∨ isIpAddr name = true then some none
      else (findBucket name domains).map fun bucket => bucket.map toAsciiLowercase := by
  rw [bucketOf, hostName, ← withoutPort_iff.mp h]
  by_cases address : name.toList.head? = some '[' ∨ isIpAddr name = true
  · rw [if_pos address]
    simp [address]
  · rw [if_neg address]
    simp [address]

/-- **The bucket of a host is exact.** Under accepted domains an address names no bucket, and any
other host names the part before a dot and a listed domain, of which there is one at most; so the
order of the domains does not matter. No host and no domains make the function panic. -/
theorem bucketOf_exact (fromEnv : Option String) (fromFile : Option (List String))
    (domains : List String) (accepted : virtualHostDomains fromEnv fromFile = .ok domains)
    (host name : String) (port : WithoutPort host name) :
    (name.toList.head? = some '[' ∨ isIpAddr name = true → bucketOf domains host = some none) ∧
    (¬ (name.toList.head? = some '[' ∨ isIpAddr name = true) → ∀ b,
      bucketOf domains host = some (some b) ↔
        ∃ d ∈ domains, ∃ p, BucketUnder name d p ∧ b = toAsciiLowercase p) ∧
    (∀ d ∈ domains, ∀ p, ∀ d' ∈ domains, ∀ p', BucketUnder name d p → BucketUnder name d' p' →
      p = p' ∧ d = d') ∧
    (∀ other, other.Perm domains → bucketOf other host = bucketOf domains host) ∧
    ∀ anyDomains anyHost, bucketOf anyDomains anyHost ≠ none := by
  obtain ⟨low, pairs⟩ := accepted_spec accepted
  have unique : ∀ d ∈ domains, ∀ d' ∈ domains, ∀ b b', Matches name d b →
      Matches name d' b' → b = b' :=
    fun d hd d' hd' b b' h h' => (matches_unique low pairs hd hd' h h').1
  refine ⟨fun address => ?_, fun plain b => ?_, ?_, ?_, ?_⟩
  · rw [bucketOf_eq port, if_pos address]
  · rw [bucketOf_eq port, if_neg plain]
    constructor
    · intro h
      obtain ⟨bucket, found, hb⟩ := Option.map_eq_some_iff.mp h
      obtain ⟨p, rfl, rfl⟩ := Option.map_eq_some_iff.mp hb
      obtain ⟨d, hd, hm⟩ := (findBucket_eq_some unique).mp found
      exact ⟨d, hd, p, (bucketUnder_iff (low d hd)).mpr hm, rfl⟩
    · rintro ⟨d, hd, p, hu, rfl⟩
      rw [(findBucket_eq_some unique).mpr ⟨d, hd, (bucketUnder_iff (low d hd)).mp hu⟩]
      rfl
  · intro d hd p d' hd' p' hu hu'
    exact matches_unique low pairs hd hd' ((bucketUnder_iff (low d hd)).mp hu)
      ((bucketUnder_iff (low d' hd')).mp hu')
  · intro other perm
    have same : findBucket name other = findBucket name domains := by
      have agree : ∀ b, findBucket name other = some (some b) ↔
          findBucket name domains = some (some b) := by
        intro b
        rw [findBucket_eq_some unique, findBucket_eq_some fun d hd d' hd' =>
          unique d (perm.mem_iff.mp hd) d' (perm.mem_iff.mp hd')]
        simp only [perm.mem_iff]
      obtain ⟨r, hr⟩ := Option.ne_none_iff_exists'.mp (findBucket_ne_none name other)
      obtain ⟨r', hr'⟩ := Option.ne_none_iff_exists'.mp (findBucket_ne_none name domains)
      rw [hr, hr'] at agree ⊢
      have : ∀ b, r = some b ↔ r' = some b := by simpa using agree
      rw [Option.ext this]
    rw [bucketOf_eq port, bucketOf_eq port, same]
  · intro anyDomains anyHost
    rw [bucketOf_eq (withoutPort_iff.mpr rfl)]
    split_ifs
    · exact Option.some_ne_none _
    · rw [ne_eq, Option.map_eq_none_iff]
      exact findBucket_ne_none _ _

theorem bucketOf_exact_example :
    virtualHostDomains (some "s3.Example.com , s3.example.org") none =
        .ok ["s3.example.com", "s3.example.org"] ∧
      WithoutPort "É.S3.example.ORG:9000" "É.S3.example.ORG" ∧
      (bucketOf ["s3.example.com", "s3.example.org"] "É.S3.example.ORG:9000" = some (some "É") ↔
        ∃ d ∈ ["s3.example.com", "s3.example.org"], ∃ p,
          BucketUnder "É.S3.example.ORG" d p ∧ "É" = toAsciiLowercase p) := by
  have accepted : virtualHostDomains (some "s3.Example.com , s3.example.org") none =
      .ok ["s3.example.com", "s3.example.org"] := by decide
  have port : WithoutPort "É.S3.example.ORG:9000" "É.S3.example.ORG" :=
    withoutPort_iff.mpr (by decide)
  exact ⟨accepted, port, (bucketOf_exact _ _ _ accepted _ _ port).2.1 (by decide) "É"⟩

end Aks3.Server
