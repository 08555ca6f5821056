import Aks3.Engine.Checksum
import Aks3.Lib.Crc

/-!
# The registers of CRC-32C and CRC-64/NVME

`Checksummer` computes the two checks with a register that it shifts right, from the
reversed constants. That is the check of the textbook with the constants as they are
published (`checksummer_crc`), and it tells apart bodies that differ in a burst no wider
than the register (`Burst.of_ne`).
-/

set_option autoImplicit false

namespace Aks3.Engine

open Lib

/-! ## The register steps -/

theorem toBitVec_crc32ReflectedBit (polyRev crc : UInt32) :
    (crc32ReflectedBit polyRev crc).toBitVec = Crc.shift polyRev.toBitVec crc.toBitVec := by
  have low : crc &&& 1 ≠ 0 ↔ crc.toBitVec.getLsbD 0 = true := by
    rw [ne_eq, ← UInt32.toBitVec_inj, UInt32.toBitVec_and]
    change ¬ crc.toBitVec &&& 1#32 = 0#32 ↔ _
    rw [BitVec.and_one_eq_setWidth_ofBool_getLsbD]
    cases crc.toBitVec.getLsbD 0 <;> decide
  unfold crc32ReflectedBit Crc.shift
  by_cases h : crc.toBitVec.getLsbD 0 = true
  · rw [if_pos (low.mpr h), if_pos h, UInt32.toBitVec_xor, UInt32.toBitVec_shiftRight]
    rfl
  · rw [if_neg (low.not.mpr h), if_neg h, UInt32.toBitVec_shiftRight]
    rfl

theorem toBitVec_crc64ReflectedBit (polyRev crc : UInt64) :
    (crc64ReflectedBit polyRev crc).toBitVec = Crc.shift polyRev.toBitVec crc.toBitVec := by
  have low : crc &&& 1 ≠ 0 ↔ crc.toBitVec.getLsbD 0 = true := by
    rw [ne_eq, ← UInt64.toBitVec_inj, UInt64.toBitVec_and]
    change ¬ crc.toBitVec &&& 1#64 = 0#64 ↔ _
    rw [BitVec.and_one_eq_setWidth_ofBool_getLsbD]
    cases crc.toBitVec.getLsbD 0 <;> decide
  unfold crc64ReflectedBit Crc.shift
  by_cases h : crc.toBitVec.getLsbD 0 = true
  · rw [if_pos (low.mpr h), if_pos h, UInt64.toBitVec_xor, UInt64.toBitVec_shiftRight]
    rfl
  · rw [if_neg (low.not.mpr h), if_neg h, UInt64.toBitVec_shiftRight]
    rfl

theorem toBitVec_crc32ReflectedStep (polyRev crc : UInt32) (byte : UInt8) :
    (crc32ReflectedStep crc byte polyRev).toBitVec =
      (Crc.shift polyRev.toBitVec)^[8] (crc.toBitVec ^^^ byte.toBitVec.setWidth 32) := by
  have semi : Function.Semiconj UInt32.toBitVec (crc32ReflectedBit polyRev)
      (Crc.shift polyRev.toBitVec) := toBitVec_crc32ReflectedBit polyRev
  rw [crc32ReflectedStep, (semi.iterate_right 8).eq, UInt32.toBitVec_xor]
  rfl

theorem toBitVec_crc64ReflectedStep (polyRev crc : UInt64) (byte : UInt8) :
    (crc64ReflectedStep crc byte polyRev).toBitVec =
      (Crc.shift polyRev.toBitVec)^[8] (crc.toBitVec ^^^ byte.toBitVec.setWidth 64) := by
  have semi : Function.Semiconj UInt64.toBitVec (crc64ReflectedBit polyRev)
      (Crc.shift polyRev.toBitVec) := toBitVec_crc64ReflectedBit polyRev
  rw [crc64ReflectedStep, (semi.iterate_right 8).eq, UInt64.toBitVec_xor]
  rfl

/-- A fold whose steps correspond ends in corresponding states. -/
theorem foldl_semiconj {α β γ : Type} {f : α → γ → α} {g : β → γ → β} {h : α → β}
    (hstep : ∀ a c, h (f a c) = g (h a) c) (l : List γ) :
    ∀ a, h (l.foldl f a) = l.foldl g (h a) := by
  induction l with
  | nil => exact fun _ => rfl
  | cons c l ih =>
      intro a
      rw [List.foldl_cons, ih, hstep, List.foldl_cons]

theorem foldl_crc32c (message : Bytes) (crc : UInt32) :
    (message.foldl (fun crc byte => crc32ReflectedStep crc byte CRC32C_POLY_REV) crc).toBitVec =
      Crc.feedAll CRC32C_POLY_REV.toBitVec crc.toBitVec (Crc.messageBits message) := by
  rw [← Crc.foldl_bytes (by decide)]
  exact foldl_semiconj (fun c byte => toBitVec_crc32ReflectedStep CRC32C_POLY_REV c byte)
    message crc

theorem foldl_crc64Nvme (message : Bytes) (crc : UInt64) :
    (message.foldl (fun crc byte => crc64ReflectedStep crc byte CRC64NVME_POLY_REV) crc).toBitVec =
      Crc.feedAll CRC64NVME_POLY_REV.toBitVec crc.toBitVec (Crc.messageBits message) := by
  rw [← Crc.foldl_bytes (by decide)]
  exact foldl_semiconj (fun c byte => toBitVec_crc64ReflectedStep CRC64NVME_POLY_REV c byte)
    message crc

/-! ## The checks -/

/-- However a body is split into updates, it is fed whole. -/
theorem foldl_update (c : Checksummer) (chunks : List Bytes) :
    chunks.foldl Checksummer.update c = c.update chunks.flatten := by
  induction chunks generalizing c with
  | nil => exact (Checksummer.update_nil c).symm
  | cons chunk chunks ih => rw [List.foldl_cons, ih, List.flatten_cons, Checksummer.update_append]

/-- The published constants, reversed, are those of the registers. -/
theorem reverse_CRC32C_POLY_REV : CRC32C_POLY_REV.toBitVec.reverse = 0x1EDC6F41#32 := by
  decide +kernel

theorem reverse_CRC64NVME_POLY_REV :
    CRC64NVME_POLY_REV.toBitVec.reverse = 0xAD93D23594C93659#64 := by
  decide +kernel

/-- However a body is split into updates, the registers hold the complement of the textbook
checks, and what is sent is the checks. -/
theorem checksummer_crc (H : Hashes) (chunks : List Bytes) :
    (∃ crc, chunks.foldl Checksummer.update ChecksumAlgorithm.crc32c.hasher = .crc32c crc ∧
      (crc ^^^ 0xFFFFFFFF).toBitVec =
        Crc.crc 0x1EDC6F41#32 (Crc.messageBits chunks.flatten) ∧
      (chunks.foldl Checksummer.update ChecksumAlgorithm.crc32c.hasher).finalizeBase64 H =
        H.base64 (beBytes32 (crc ^^^ 0xFFFFFFFF))) ∧
    ∃ crc, chunks.foldl Checksummer.update ChecksumAlgorithm.crc64Nvme.hasher = .crc64Nvme crc ∧
      (crc ^^^ 0xFFFFFFFFFFFFFFFF).toBitVec =
        Crc.crc 0xAD93D23594C93659#64 (Crc.messageBits chunks.flatten) ∧
      (chunks.foldl Checksummer.update ChecksumAlgorithm.crc64Nvme.hasher).finalizeBase64 H =
        H.base64 (beBytes64 (crc ^^^ 0xFFFFFFFFFFFFFFFF)) := by
  rw [foldl_update, foldl_update]
  refine ⟨⟨_, rfl, ?_, rfl⟩, ⟨_, rfl, ?_, rfl⟩⟩
  · rw [UInt32.toBitVec_xor, foldl_crc32c, ← reverse_CRC32C_POLY_REV, ← Crc.crc_eq (by decide)]
    exact BitVec.xor_allOnes
  · rw [UInt64.toBitVec_xor, foldl_crc64Nvme, ← reverse_CRC64NVME_POLY_REV,
      ← Crc.crc_eq (by decide)]
    exact BitVec.xor_allOnes

/-- The comment beside the constant of CRC-64/NVME names another polynomial, and with that
one the textbook check of `123456789` is a different one. -/
theorem checksummer_crc_comment :
    ∃ crc, [utf8 "123456789"].foldl Checksummer.update ChecksumAlgorithm.crc64Nvme.hasher =
        .crc64Nvme crc ∧
      (crc ^^^ 0xFFFFFFFFFFFFFFFF).toBitVec ≠
        Crc.crc 0xAD93D23594C935A9#64 (Crc.messageBits (utf8 "123456789")) := by
  refine ⟨_, rfl, ?_⟩
  have reversed : 0xAD93D23594C935A9#64 = (0x95AC9329AC4BC9B5#64).reverse := by decide +kernel
  rw [reversed, ← Crc.crc_eq (by decide)]
  decide +kernel

/-! ## Bursts -/

/-- Two bodies of one length that differ, and only in a window of `width` bits. -/
structure Burst (width : Nat) (x y : Bytes) : Prop where
  length : x.length = y.length
  differ : x ≠ y
  window : ∃ start, ∀ i, i < start ∨ start + width ≤ i →
    (Crc.messageBits x)[i]? = (Crc.messageBits y)[i]?

theorem byteBits_injective : Function.Injective Crc.byteBits := by
  intro a b h
  refine UInt8.toBitVec_inj.mp (BitVec.eq_of_getLsbD_eq fun i hi => ?_)
  exact congrFun (List.ofFn_injective h) ⟨i, hi⟩

theorem length_messageBits (x : Bytes) : (Crc.messageBits x).length = 8 * x.length := by
  induction x with
  | nil => rfl
  | cons byte x ih =>
      rw [Crc.messageBits, List.flatMap_cons, List.length_append, ← Crc.messageBits, ih,
        List.length_cons, Crc.byteBits, List.length_ofFn]
      omega

theorem messageBits_injective : Function.Injective Crc.messageBits
  | [], [], _ => rfl
  | [], byte :: y, h => by
      have := congrArg List.length h
      simp [length_messageBits] at this
  | byte :: x, [], h => by
      have := congrArg List.length h
      simp [length_messageBits] at this
  | byte :: x, byte' :: y, h => by
      have len : (Crc.byteBits byte).length = (Crc.byteBits byte').length := by simp [Crc.byteBits]
      obtain ⟨first, rest⟩ := List.append_inj h len
      rw [byteBits_injective first, messageBits_injective rest]

/-- A burst is a window of bits between equal bits. -/
theorem Burst.exists_bits {width : Nat} {x y : Bytes} (h : Burst width x y) :
    ∃ before u v after, Crc.messageBits x = before ++ (u ++ after) ∧
      Crc.messageBits y = before ++ (v ++ after) ∧ u.length = v.length ∧ u.length ≤ width ∧
      u ≠ v := by
  obtain ⟨start, outside⟩ := h.window
  have len : (Crc.messageBits x).length = (Crc.messageBits y).length := by
    rw [length_messageBits, length_messageBits, h.length]
  have before : (Crc.messageBits x).take start = (Crc.messageBits y).take start := by
    refine List.ext_getElem? fun i => ?_
    rw [List.getElem?_take, List.getElem?_take]
    split
    · next hi => exact outside i (.inl hi)
    · rfl
  have after : ((Crc.messageBits x).drop start).drop width =
      ((Crc.messageBits y).drop start).drop width := by
    refine List.ext_getElem? fun i => ?_
    rw [List.drop_drop, List.drop_drop, List.getElem?_drop, List.getElem?_drop]
    exact outside _ (.inr (by omega))
  have split (z : Bytes) : Crc.messageBits z = (Crc.messageBits z).take start ++
      (((Crc.messageBits z).drop start).take width ++
        ((Crc.messageBits z).drop start).drop width) := by
    rw [List.take_append_drop, List.take_append_drop]
  refine ⟨_, _, _, _, split x, by rw [before, after]; exact split y, by simp [len], by simp,
    fun same => h.differ (messageBits_injective ?_)⟩
  rw [split x, split y, before, same, after]

/-- Bodies that differ in a burst of 32 bits have different registers. -/
theorem Burst.crc32c_ne {x y : Bytes} (h : Burst 32 x y) (crc : UInt32) :
    x.foldl (fun crc byte => crc32ReflectedStep crc byte CRC32C_POLY_REV) crc ≠
      y.foldl (fun crc byte => crc32ReflectedStep crc byte CRC32C_POLY_REV) crc := by
  intro same
  obtain ⟨before, u, v, after, hx, hy, hlen, hu, hne⟩ := h.exists_bits
  have registers := congrArg UInt32.toBitVec same
  rw [foldl_crc32c, foldl_crc32c, hx, hy] at registers
  exact Crc.feedAll_ne (by decide) (by decide +kernel) _ before u v after hlen hu hne registers

/-- Bodies that differ in a burst of 64 bits have different registers. -/
theorem Burst.crc64Nvme_ne {x y : Bytes} (h : Burst 64 x y) (crc : UInt64) :
    x.foldl (fun crc byte => crc64ReflectedStep crc byte CRC64NVME_POLY_REV) crc ≠
      y.foldl (fun crc byte => crc64ReflectedStep crc byte CRC64NVME_POLY_REV) crc := by
  intro same
  obtain ⟨before, u, v, after, hx, hy, hlen, hu, hne⟩ := h.exists_bits
  have registers := congrArg UInt64.toBitVec same
  rw [foldl_crc64Nvme, foldl_crc64Nvme, hx, hy] at registers
  exact Crc.feedAll_ne (by decide) (by decide +kernel) _ before u v after hlen hu hne registers

theorem beBytes32_injective : Function.Injective beBytes32 := by
  intro a b h
  simp only [beBytes32, List.cons.injEq, and_true, ← UInt8.toNat_inj, UInt32.toNat_toUInt8,
    UInt32.toNat_shiftRight] at h
  refine UInt32.toNat_inj.mp ?_
  have ha := a.toNat_lt
  have hb := b.toNat_lt
  simp [Nat.shiftRight_eq_div_pow] at h
  omega

theorem beBytes64_injective : Function.Injective beBytes64 := by
  intro a b h
  simp only [beBytes64, List.cons.injEq, and_true, ← UInt8.toNat_inj, UInt64.toNat_toUInt8,
    UInt64.toNat_shiftRight] at h
  refine UInt64.toNat_inj.mp ?_
  have ha := a.toNat_lt
  have hb := b.toNat_lt
  simp [Nat.shiftRight_eq_div_pow] at h
  omega

/-- The width of the register of a check, for the two that are computed here. -/
def ChecksumAlgorithm.burst : ChecksumAlgorithm → Option Nat
  | .crc32c => some 32
  | .crc64Nvme => some 64
  | _ => none

/-- Bodies that differ in a burst no wider than the register have different checksums. -/
theorem Burst.of_ne {H : Hashes} (base64 : Function.Injective H.base64) {a : ChecksumAlgorithm}
    {width : Nat} (ha : a.burst = some width) {x y : Bytes} (h : Burst width x y) :
    (a.of H x).value ≠ (a.of H y).value := by
  intro same
  cases a with
  | crc32 => cases ha
  | sha1 => cases ha
  | sha256 => cases ha
  | crc32c =>
      cases ha
      exact h.crc32c_ne 0xFFFFFFFF (UInt32.xor_left_inj _ |>.mp (beBytes32_injective (base64 same)))
  | crc64Nvme =>
      cases ha
      exact h.crc64Nvme_ne 0xFFFFFFFFFFFFFFFF
        (UInt64.xor_left_inj _ |>.mp (beBytes64_injective (base64 same)))

end Aks3.Engine
