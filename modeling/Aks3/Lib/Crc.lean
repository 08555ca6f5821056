import Mathlib

/-!
# Cyclic redundancy checks

A message is a list of bits, first bit first, and stands for the polynomial over
the field of two elements whose leading coefficient is its first bit. `crc` is
the textbook check of width `w`: append `w` zeros, complement the first `w` bits,
divide by `X ^ w + poly`, and complement the remainder. It is written bit-reversed.

A reflected register (`feed`) takes the message one bit at a time and shifts right.
One shift is a multiplication by `X` modulo the divisor (`shift_spec`), so a whole
message leaves the remainder in the register (`feedAll_spec`, `crc_eq`). Two
messages that differ in a window no wider than the register leave it different when
the divisor has a constant term (`feedAll_ne`).
-/

set_option autoImplicit false

namespace Aks3.Lib.Crc

open Polynomial

/-! ## Bits as coefficients -/

def coeffOf (b : Bool) : ZMod 2 := if b then 1 else 0

@[simp] theorem coeffOf_false : coeffOf false = 0 := rfl
@[simp] theorem coeffOf_true : coeffOf true = 1 := rfl

theorem coeffOf_xor (a b : Bool) : coeffOf (a ^^ b) = coeffOf a + coeffOf b := by
  revert a b
  decide

theorem coeffOf_injective : Function.Injective coeffOf := by
  decide

theorem coeffOf_decide (x : ZMod 2) : coeffOf (decide (x = 1)) = x := by
  revert x
  decide

variable {w : Nat}

/-- The polynomial whose coefficients are the bits of a vector. -/
noncomputable def toPoly (v : BitVec w) : (ZMod 2)[X] :=
  ∑ i ∈ Finset.range w, C (coeffOf (v.getLsbD i)) * X ^ i

/-- The vector of the first coefficients of a polynomial. -/
noncomputable def ofPoly (w : Nat) (p : (ZMod 2)[X]) : BitVec w :=
  BitVec.ofFnLE fun i : Fin w => decide (p.coeff i = 1)

@[simp] theorem coeff_toPoly (v : BitVec w) (n : Nat) :
    (toPoly v).coeff n = coeffOf (v.getLsbD n) := by
  simp only [toPoly, finsetSum_coeff, coeff_C_mul_X_pow]
  rw [Finset.sum_ite_eq]
  split
  · rfl
  · next h =>
    rw [BitVec.getLsbD_of_ge _ _ (by simpa using h)]
    rfl

theorem toPoly_injective : Function.Injective (toPoly : BitVec w → (ZMod 2)[X]) := by
  intro u v h
  refine BitVec.eq_of_getLsbD_eq fun i _ => coeffOf_injective ?_
  rw [← coeff_toPoly, ← coeff_toPoly, h]

theorem degree_toPoly_lt (v : BitVec w) : (toPoly v).degree < w := by
  refine (degree_lt_iff_coeff_zero _ _).mpr fun n hn => ?_
  rw [coeff_toPoly, BitVec.getLsbD_of_ge _ _ hn]
  rfl

theorem toPoly_ofPoly {p : (ZMod 2)[X]} (h : p.degree < w) : toPoly (ofPoly w p) = p := by
  ext n
  rw [coeff_toPoly]
  by_cases hn : n < w
  · rw [ofPoly, BitVec.getLsbD_eq_getElem hn, BitVec.getElem_ofFnLE, coeffOf_decide]
  · rw [BitVec.getLsbD_of_ge _ _ (by omega),
      (degree_lt_iff_coeff_zero _ _).mp h n (by omega)]
    rfl

theorem toPoly_allOnes : toPoly (BitVec.allOnes w) = ∑ i ∈ Finset.range w, X ^ i := by
  refine Finset.sum_congr rfl fun i hi => ?_
  simp [Finset.mem_range.mp hi]

/-- The divisor of a check: `X ^ w` and the named lower coefficients. -/
noncomputable def divisor (poly : BitVec w) : (ZMod 2)[X] := X ^ w + toPoly poly

theorem monic_divisor (poly : BitVec w) : (divisor poly).Monic :=
  monic_X_pow_add (degree_toPoly_lt poly)

theorem degree_divisor (poly : BitVec w) : (divisor poly).degree = w := by
  rw [divisor, degree_add_eq_left_of_degree_lt, degree_X_pow]
  rw [degree_X_pow]
  exact degree_toPoly_lt poly

/-! ## Messages -/

/-- The polynomial of a message, its first bit the leading coefficient. -/
noncomputable def bitsPoly : List Bool → (ZMod 2)[X]
  | [] => 0
  | b :: bits => C (coeffOf b) * X ^ bits.length + bitsPoly bits

theorem bitsPoly_append (bits more : List Bool) :
    bitsPoly (bits ++ more) = bitsPoly bits * X ^ more.length + bitsPoly more := by
  induction bits with
  | nil => simp [bitsPoly]
  | cons b bits ih =>
      rw [List.cons_append, bitsPoly, ih, bitsPoly, List.length_append]
      ring

theorem bitsPoly_zeros (n : Nat) : bitsPoly (List.replicate n false) = 0 := by
  induction n with
  | zero => rfl
  | succ n ih => simp [List.replicate_succ, bitsPoly, ih]

theorem bitsPoly_map_not (bits : List Bool) :
    bitsPoly (bits.map not) = bitsPoly bits + ∑ i ∈ Finset.range bits.length, X ^ i := by
  induction bits with
  | nil => simp [bitsPoly]
  | cons b bits ih =>
      have flip : C (coeffOf !b) = C (coeffOf b) + (1 : (ZMod 2)[X]) := by
        rw [← C_1, ← C_add]
        congr 1
        revert b
        decide
      rw [List.map_cons, bitsPoly, List.length_map, ih, flip, List.length_cons,
        Finset.sum_range_succ, bitsPoly]
      ring

theorem degree_bitsPoly_lt (bits : List Bool) : (bitsPoly bits).degree < bits.length := by
  induction bits with
  | nil => simp [bitsPoly]
  | cons b bits ih =>
      rw [bitsPoly, List.length_cons]
      refine (degree_add_le _ _).trans_lt
        (max_lt ?_ (ih.trans (by exact_mod_cast Nat.lt_succ_self _)))
      exact (degree_C_mul_X_pow_le _ _).trans_lt (by exact_mod_cast Nat.lt_succ_self _)

/-- Messages of one length are told apart by their polynomials. -/
theorem bitsPoly_injective : ∀ {bits bits' : List Bool}, bits.length = bits'.length →
    bitsPoly bits = bitsPoly bits' → bits = bits'
  | [], [], _, _ => rfl
  | b :: bits, b' :: bits', hlen, h => by
      have hlen : bits.length = bits'.length := Nat.succ.inj hlen
      rw [bitsPoly, bitsPoly, ← hlen] at h
      have lead := congrArg (fun p => p.coeff bits.length) h
      simp only [coeff_add, coeff_C_mul_X_pow, if_true,
        (degree_lt_iff_coeff_zero _ _).mp (degree_bitsPoly_lt bits) _ le_rfl,
        (degree_lt_iff_coeff_zero _ _).mp (degree_bitsPoly_lt bits') _ hlen.ge, add_zero] at lead
      rw [lead, add_right_inj] at h
      rw [coeffOf_injective lead, bitsPoly_injective hlen h]

/-- The first `n` bits complemented. -/
def complementFirst (n : Nat) (bits : List Bool) : List Bool :=
  (bits.take n).map not ++ bits.drop n

/-- What is divided: the message with `w` zeros after it and its first `w` bits complemented. -/
noncomputable def dividend (w : Nat) (bits : List Bool) : (ZMod 2)[X] :=
  bitsPoly (complementFirst w (bits ++ List.replicate w false))

theorem dividend_eq (w : Nat) (bits : List Bool) :
    dividend w bits = X ^ bits.length * toPoly (BitVec.allOnes w) + X ^ w * bitsPoly bits := by
  have hlen : ((bits ++ List.replicate w false).take w).length = w := by simp
  have hrest : ((bits ++ List.replicate w false).drop w).length = bits.length := by simp
  have whole : bitsPoly ((bits ++ List.replicate w false).take w) * X ^ bits.length +
      bitsPoly ((bits ++ List.replicate w false).drop w) = bitsPoly bits * X ^ w := by
    calc _ = bitsPoly (bits ++ List.replicate w false) := by
          conv_rhs => rw [← List.take_append_drop w (bits ++ List.replicate w false),
            bitsPoly_append, hrest]
      _ = bitsPoly bits * X ^ w := by
          rw [bitsPoly_append, bitsPoly_zeros, List.length_replicate, add_zero]
  rw [dividend, complementFirst, bitsPoly_append, bitsPoly_map_not, hlen, hrest,
    toPoly_allOnes]
  linear_combination whole

/-- The check of a message: the remainder, reversed and complemented. -/
noncomputable def crc (poly : BitVec w) (bits : List Bool) : BitVec w :=
  ~~~ (ofPoly w (dividend w bits %ₘ divisor poly)).reverse

/-! ## The reflected register -/

/-- One shift of the register. -/
def shift (polyRev v : BitVec w) : BitVec w :=
  if v.getLsbD 0 then (v >>> 1) ^^^ polyRev else v >>> 1

/-- A bit in the lowest place. -/
def lowest (w : Nat) (b : Bool) : BitVec w := (BitVec.ofBool b).setWidth w

/-- The register after one more bit of the message. -/
def feed (polyRev v : BitVec w) (b : Bool) : BitVec w := shift polyRev (v ^^^ lowest w b)

/-- The register after a message. -/
def feedAll (polyRev v : BitVec w) (bits : List Bool) : BitVec w := bits.foldl (feed polyRev) v

theorem getLsbD_lowest (b : Bool) (i : Nat) :
    (lowest w b).getLsbD i = (decide (i < w) && (decide (i = 0) && b)) := by
  rw [lowest, BitVec.getLsbD_setWidth, BitVec.getLsbD_ofBool]

theorem shift_xor (polyRev u v : BitVec w) :
    shift polyRev (u ^^^ v) = shift polyRev u ^^^ shift polyRev v := by
  refine BitVec.eq_of_getLsbD_eq fun i _ => ?_
  simp only [shift, BitVec.getLsbD_xor, BitVec.ushiftRight_xor_distrib]
  cases u.getLsbD 0 <;> cases v.getLsbD 0 <;>
    simp [Bool.xor_left_comm, Bool.xor_comm]

theorem coeff_toPoly_reverse (v : BitVec w) (n : Nat) :
    (toPoly v.reverse).coeff n = coeffOf (decide (n < w) && v.getLsbD (w - 1 - n)) := by
  rw [coeff_toPoly, BitVec.getLsbD_reverse, BitVec.getMsbD]

theorem toPoly_reverse_xor (u v : BitVec w) :
    toPoly (u ^^^ v).reverse = toPoly u.reverse + toPoly v.reverse := by
  ext n
  simp only [coeff_add, coeff_toPoly_reverse, BitVec.getLsbD_xor, ← coeffOf_xor]
  cases decide (n < w) <;> simp

/-- A shift multiplies by `X` modulo the divisor. -/
theorem shift_spec (hw : 0 < w) (polyRev v : BitVec w) :
    X * toPoly v.reverse = toPoly (shift polyRev v).reverse +
      C (coeffOf (v.getLsbD 0)) * divisor polyRev.reverse := by
  have shifted : X * toPoly v.reverse =
      toPoly (v >>> 1).reverse + C (coeffOf (v.getLsbD 0)) * X ^ w := by
    ext n
    rw [coeff_add, coeff_toPoly_reverse, coeff_C_mul_X_pow, BitVec.getLsbD_ushiftRight]
    cases n with
    | zero =>
        rw [coeff_X_mul_zero, if_neg (by omega), BitVec.getLsbD_of_ge _ _ (by omega)]
        simp
    | succ n =>
        rw [coeff_X_mul, coeff_toPoly_reverse]
        -- The lowest bit leaves the register; every other one moves up a degree.
        rcases Nat.lt_trichotomy (n + 1) w with lt | eq | gt
        · rw [if_neg (by omega), show 1 + (w - 1 - (n + 1)) = w - 1 - n by omega]
          simp [lt, show n < w by omega]
        · rw [if_pos eq, show w - 1 - n = 0 by omega]
          simp [show n < w by omega, show ¬ n + 1 < w by omega]
        · rw [if_neg (by omega)]
          simp [show ¬ n < w by omega, show ¬ n + 1 < w by omega]
  have two : (2 : (ZMod 2)[X]) = 0 := CharTwo.two_eq_zero
  rw [shifted, shift, divisor]
  cases v.getLsbD 0 with
  | false => simp
  | true =>
      simp only [if_true, coeffOf_true, C_1, toPoly_reverse_xor]
      linear_combination (-toPoly polyRev.reverse) * two

theorem toPoly_reverse_lowest (hw : 0 < w) (b : Bool) :
    X * toPoly (lowest w b).reverse = C (coeffOf b) * X ^ w := by
  ext n
  rw [coeff_C_mul_X_pow]
  cases n with
  | zero => rw [coeff_X_mul_zero, if_neg (by omega)]
  | succ n =>
      rw [coeff_X_mul, coeff_toPoly_reverse, getLsbD_lowest]
      by_cases eq : n + 1 = w
      · rw [if_pos eq]
        simp [show w - 1 - n = 0 by omega, show n < w by omega, hw]
      · rw [if_neg eq]
        by_cases lt : n < w
        · simp [show ¬ w - 1 - n = 0 by omega]
        · simp [lt]

/-- The register holds the message so far, times `X ^ w`, modulo the divisor. The induction
is over the message, one shift of the register for each bit. -/
theorem feedAll_spec (hw : 0 < w) (polyRev : BitVec w) (bits : List Bool) :
    ∀ v : BitVec w, ∃ q, X ^ bits.length * toPoly v.reverse + X ^ w * bitsPoly bits =
      toPoly (feedAll polyRev v bits).reverse + divisor polyRev.reverse * q := by
  induction bits with
  | nil => exact fun v => ⟨0, by simp [bitsPoly, feedAll]⟩
  | cons b bits ih =>
      intro v
      obtain ⟨q, hq⟩ := ih (feed polyRev v b)
      have step := shift_spec hw polyRev (v ^^^ lowest w b)
      rw [toPoly_reverse_xor, mul_add, toPoly_reverse_lowest hw] at step
      refine ⟨q + X ^ bits.length * C (coeffOf ((v ^^^ lowest w b).getLsbD 0)), ?_⟩
      rw [show feedAll polyRev v (b :: bits) = feedAll polyRev (feed polyRev v b) bits from rfl,
        List.length_cons, bitsPoly]
      rw [show shift polyRev (v ^^^ lowest w b) = feed polyRev v b from rfl] at step
      linear_combination hq + X ^ bits.length * step

/-- A register that starts with all bits set and is complemented at the end computes the
check. -/
theorem crc_eq (hw : 0 < w) (polyRev : BitVec w) (bits : List Bool) :
    ~~~ feedAll polyRev (BitVec.allOnes w) bits = crc polyRev.reverse bits := by
  obtain ⟨q, hq⟩ := feedAll_spec hw polyRev bits (BitVec.allOnes w)
  have ones : (BitVec.allOnes w).reverse = BitVec.allOnes w := by
    refine BitVec.eq_of_getLsbD_eq fun i hi => ?_
    rw [BitVec.getLsbD_reverse, BitVec.getMsbD, BitVec.getLsbD_allOnes, BitVec.getLsbD_allOnes]
    simp [hi, show w - 1 - i < w by omega]
  rw [ones, ← dividend_eq] at hq
  have remainder := (div_modByMonic_unique q _ (monic_divisor polyRev.reverse)
    ⟨hq.symm, by rw [degree_divisor]; exact degree_toPoly_lt _⟩).2
  have back : ofPoly w (toPoly (feedAll polyRev (BitVec.allOnes w) bits).reverse) =
      (feedAll polyRev (BitVec.allOnes w) bits).reverse :=
    toPoly_injective (toPoly_ofPoly (degree_toPoly_lt _))
  rw [crc, remainder, back, BitVec.reverse_reverse_eq]

/-! ## Bursts -/

theorem coprime_divisor_X {poly : BitVec w} (hw : 0 < w) (h : poly.getLsbD 0 = true) :
    IsCoprime (divisor poly) X := by
  have constant : (divisor poly).coeff 0 = 1 := by
    rw [divisor, coeff_add, coeff_X_pow, if_neg (by omega), coeff_toPoly, h]
    simp
  refine ⟨1, -(divisor poly).divX, ?_⟩
  have split := divX_mul_X_add (divisor poly)
  rw [constant, C_1] at split
  linear_combination -split

/-- Two messages that differ in a window no wider than the register leave it different. -/
theorem feedAll_ne {polyRev : BitVec w} (hw : 0 < w) (h : polyRev.reverse.getLsbD 0 = true)
    (init : BitVec w) (before u v after : List Bool) (hlen : u.length = v.length)
    (hu : u.length ≤ w) (hne : u ≠ v) :
    feedAll polyRev init (before ++ (u ++ after)) ≠
      feedAll polyRev init (before ++ (v ++ after)) := by
  intro same
  obtain ⟨q, hq⟩ := feedAll_spec hw polyRev (before ++ (u ++ after)) init
  obtain ⟨q', hq'⟩ := feedAll_spec hw polyRev (before ++ (v ++ after)) init
  rw [same] at hq
  simp only [bitsPoly_append, List.length_append, hlen] at hq hq'
  -- What is left of the difference of the messages is a multiple of the divisor.
  have multiple : divisor polyRev.reverse ∣
      X ^ (w + after.length) * (bitsPoly u - bitsPoly v) := by
    refine ⟨q - q', ?_⟩
    rw [pow_add]
    linear_combination hq - hq'
  have small : divisor polyRev.reverse ∣ bitsPoly u - bitsPoly v :=
    (coprime_divisor_X hw h).pow_right.dvd_of_dvd_mul_left multiple
  have zero : bitsPoly u - bitsPoly v = 0 := by
    refine eq_zero_of_dvd_of_degree_lt small ?_
    rw [degree_divisor]
    refine (degree_sub_le _ _).trans_lt (max_lt ?_ ?_)
    · exact (degree_bitsPoly_lt u).trans_le (by exact_mod_cast hu)
    · exact (degree_bitsPoly_lt v).trans_le (by exact_mod_cast hlen ▸ hu)
  exact hne (bitsPoly_injective hlen (sub_eq_zero.mp zero))

/-! ## Whole bytes -/

/-- The vector with the given bits, the first one lowest. -/
def lowBits (w : Nat) (bits : List Bool) : BitVec w :=
  BitVec.ofFnLE fun i : Fin w => bits.getD i false

theorem getLsbD_lowBits (bits : List Bool) (i : Nat) :
    (lowBits w bits).getLsbD i = (decide (i < w) && bits.getD i false) := by
  by_cases hi : i < w
  · rw [lowBits, BitVec.getLsbD_eq_getElem hi, BitVec.getElem_ofFnLE]
    simp [hi]
  · rw [BitVec.getLsbD_of_ge _ _ (by omega)]
    simp [hi]

/-- The bits above the lowest one only move down. -/
theorem shift_lowBits_cons (polyRev v : BitVec w) (b : Bool) {bits : List Bool}
    (h : bits.length < w) :
    shift polyRev (v ^^^ lowBits w (b :: bits)) = feed polyRev v b ^^^ lowBits w bits := by
  have split : lowBits w (b :: bits) = lowest w b ^^^ (lowBits w bits <<< 1) := by
    refine BitVec.eq_of_getLsbD_eq fun i hi => ?_
    rw [BitVec.getLsbD_xor, getLsbD_lowBits, getLsbD_lowest, BitVec.getLsbD_shiftLeft,
      getLsbD_lowBits]
    cases i with
    | zero => simp
    | succ i => simp [hi, show i < w by omega]
  have down : shift polyRev (lowBits w bits <<< 1) = lowBits w bits := by
    have clear : (lowBits w bits <<< 1).getLsbD 0 = false := by simp
    rw [shift, clear, if_neg Bool.false_ne_true]
    refine BitVec.eq_of_getLsbD_eq fun i hi => ?_
    simp only [BitVec.getLsbD_ushiftRight, BitVec.getLsbD_shiftLeft, getLsbD_lowBits,
      Nat.add_sub_cancel_left]
    by_cases top : 1 + i < w
    · simp [top, hi]
    · have : bits.length ≤ i := by omega
      simp [top, this]
  rw [split, ← BitVec.xor_assoc, shift_xor, down, feed]

/-- Taking the bits of a word in one by one is taking in the word and shifting. -/
theorem feedAll_eq_iterate (polyRev : BitVec w) : ∀ (bits : List Bool) (v : BitVec w),
    bits.length ≤ w →
      feedAll polyRev v bits = (shift polyRev)^[bits.length] (v ^^^ lowBits w bits)
  | [], v, _ => by
      have none : lowBits w [] = 0#w := by
        refine BitVec.eq_of_getLsbD_eq fun i _ => ?_
        simp [getLsbD_lowBits]
      simp [feedAll, none]
  | b :: bits, v, h => by
      rw [List.length_cons, Function.iterate_succ_apply, shift_lowBits_cons polyRev v b h,
        ← feedAll_eq_iterate polyRev bits _ (Nat.le_of_lt h)]
      rfl

/-- The bits of a byte, lowest first. -/
def byteBits (byte : UInt8) : List Bool := List.ofFn fun i : Fin 8 => byte.toBitVec.getLsbD i

/-- The bits of a message of bytes. -/
def messageBits (message : List UInt8) : List Bool := message.flatMap byteBits

theorem lowBits_byteBits (byte : UInt8) :
    lowBits w (byteBits byte) = byte.toBitVec.setWidth w := by
  refine BitVec.eq_of_getLsbD_eq fun i hi => ?_
  rw [getLsbD_lowBits, BitVec.getLsbD_setWidth]
  have bit : (byteBits byte).getD i false = byte.toBitVec.getLsbD i := by
    rw [byteBits, List.getD, List.getElem?_ofFn]
    split
    · rfl
    · rw [BitVec.getLsbD_of_ge _ _ (by omega)]
      rfl
  rw [bit]

/-- Taking in a byte. -/
theorem feedAll_byte (h : 8 ≤ w) (polyRev v : BitVec w) (byte : UInt8) :
    feedAll polyRev v (byteBits byte) =
      (shift polyRev)^[8] (v ^^^ byte.toBitVec.setWidth w) := by
  have len : (byteBits byte).length = 8 := by simp [byteBits]
  rw [feedAll_eq_iterate polyRev _ v (by omega), len, lowBits_byteBits]

/-- Taking in a message byte by byte. -/
theorem foldl_bytes (h : 8 ≤ w) (polyRev : BitVec w) (message : List UInt8) :
    ∀ v : BitVec w, message.foldl
        (fun v byte => (shift polyRev)^[8] (v ^^^ byte.toBitVec.setWidth w)) v =
      feedAll polyRev v (messageBits message) := by
  induction message with
  | nil => exact fun _ => rfl
  | cons byte message ih =>
      intro v
      have whole : messageBits (byte :: message) = byteBits byte ++ messageBits message :=
        List.flatMap_cons
      rw [List.foldl_cons, ih, ← feedAll_byte h, whole, feedAll, feedAll, feedAll,
        List.foldl_append]

end Aks3.Lib.Crc
