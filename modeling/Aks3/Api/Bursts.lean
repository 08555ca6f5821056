import Aks3.Api.Verified
import Aks3.Engine.Crc

/-!
# Uploads damaged by a burst

An upload whose checksum was computed over one body is refused when another arrives that
differs from it in a burst of bits no wider than the check (`burst_rejected`).
-/

set_option autoImplicit false

namespace Aks3.Api

open Lib Engine

/-- The bodies `x` and `y` differ in a burst no wider than the register of the check `a`: their
checksums differ, and a reader of `y` through a verifier that expects the checksum of `x`
gets the mismatch, however `y` is split and delayed. -/
theorem burst_rejected {H : Hashes} (base64 : Function.Injective H.base64)
    {a : ChecksumAlgorithm} {width : Nat} (ha : a.burst = some width) {x y : Bytes}
    (h : Burst width x y) :
    (a.of H x).value ≠ (a.of H y).value ∧
      ∀ (body : Polls String) (expected : Expected), Delivers body y →
        expected.resolve = some (a.of H x).value →
          collect ((VerifyingStream.new (engineBody body) ⟨a, expected⟩).drain H) =
            .error (ChecksumError.mismatch a).toIo := by
  have differ := h.of_ne base64 ha
  refine ⟨differ, fun body expected delivers value => ?_⟩
  have fails : ¬ Passes H (some ⟨a, expected⟩) y := by
    intro passes
    have same := passes ⟨a, expected⟩ rfl
    rw [value, Option.some.injEq] at same
    exact differ same
  have stream := collect_engineStream_fails delivers fails
  rwa [failure, value] at stream

/-! ## Two one-byte bodies -/

/-- Base64 of the CRC-32C of `a` and of `b`, and anything that can be told apart on others. -/
def burstBase64 (bytes : Bytes) : String :=
  if bytes = [0xc1, 0xd0, 0x43, 0x30] then "wdBDMA=="
  else if bytes = [0xd2, 0x80, 0xb0, 0xc4] then "0oCwxA=="
  else String.ofList ('=' :: bytes.map fun b => Char.ofNat b.toNat)

theorem charOfByte_injective : Function.Injective fun b : UInt8 => Char.ofNat b.toNat := by
  refine Function.LeftInverse.injective (g := fun c => UInt8.ofNat c.toNat) ?_
  exact forall_uint8 (by decide +kernel)

theorem burstBase64_injective : Function.Injective burstBase64 := by
  have other (text : String) (l : List Char) (htext : text.toList.head? ≠ some '=') :
      text ≠ String.ofList ('=' :: l) := by
    rintro rfl
    simp at htext
  intro x y h
  unfold burstBase64 at h
  split at h
  · next hx =>
    split at h
    · next hy => rw [hx, hy]
    · split at h
      · exact absurd h (by decide)
      · exact absurd h (other _ _ (by decide))
  · split at h
    · next hx =>
      split at h
      · exact absurd h (by decide)
      · split at h
        · next hy => rw [hx, hy]
        · exact absurd h (other _ _ (by decide))
    · split at h
      · exact absurd h.symm (other _ _ (by decide))
      · split at h
        · exact absurd h.symm (other _ _ (by decide))
        · exact List.map_injective_iff.mpr charOfByte_injective
            (List.cons.inj (String.ofList_injective h)).2

def burstHashes : Hashes := { sampleCrates.toHashes with base64 := burstBase64 }

/-- The checksum of `a` came with the upload, and `b` arrives. -/
theorem burst_rejected_a_b :
    collect ((VerifyingStream.new (engineBody [some (.ok (utf8 "b"))])
      ⟨.crc32c, .immediate "wdBDMA=="⟩).drain burstHashes) =
        .error (ChecksumError.mismatch .crc32c).toIo := by
  have window : Burst 32 (utf8 "a") (utf8 "b") := by
    refine ⟨rfl, by decide, 0, fun i hi => ?_⟩
    have far : 8 ≤ i := by omega
    rw [List.getElem?_eq_none (by rw [length_messageBits]; exact far),
      List.getElem?_eq_none (by rw [length_messageBits]; exact far)]
  exact (burst_rejected (H := burstHashes) burstBase64_injective rfl window).2 _ _
    ⟨[utf8 "b"], rfl, by decide⟩ (by decide +kernel)

end Aks3.Api
