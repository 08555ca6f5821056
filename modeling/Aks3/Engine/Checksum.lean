import Aks3.Lib.Text

/-!
# Object checksums

The five checksum algorithms a `PUT` may ask for and a running hasher over each.
CRC-32C and CRC-64/NVME are computed here as bit-reflected registers; the others
come from crates, of which only the digest of what was fed to them is used.
-/

set_option autoImplicit false

namespace Aks3.Engine

open Lib

/-- The digests the hashing crates compute, and base64. -/
structure Hashes where
  md5 : Bytes → Bytes
  crc32 : Bytes → UInt32
  sha1 : Bytes → Bytes
  sha256 : Bytes → Bytes
  base64 : Bytes → String

/-- Reflected polynomial for CRC-32C, the reverse of `0x1EDC6F41`. -/
def CRC32C_POLY_REV : UInt32 := 0x82F63B78

/-- Reflected polynomial for CRC-64/NVME, the reverse of `0xAD93D23594C93659`. -/
def CRC64NVME_POLY_REV : UInt64 := 0x9A6C9329AC4BC9B5

inductive ChecksumAlgorithm where
  | crc32
  | crc32c
  | sha1
  | sha256
  | crc64Nvme
  deriving DecidableEq, Repr

namespace ChecksumAlgorithm

/-- The uppercase S3 name of an algorithm. -/
def asStr : ChecksumAlgorithm → String
  | .crc32 => "CRC32"
  | .crc32c => "CRC32C"
  | .sha1 => "SHA1"
  | .sha256 => "SHA256"
  | .crc64Nvme => "CRC64NVME"

/-- The algorithm an S3 name names, in any case. -/
def fromName (name : Bytes) : Option ChecksumAlgorithm :=
  if eqIgnoreAsciiCase name (utf8 "CRC32C") then some .crc32c
  else if eqIgnoreAsciiCase name (utf8 "CRC32") then some .crc32
  else if eqIgnoreAsciiCase name (utf8 "SHA1") then some .sha1
  else if eqIgnoreAsciiCase name (utf8 "SHA256") then some .sha256
  else if eqIgnoreAsciiCase name (utf8 "CRC64NVME") then some .crc64Nvme
  else none

end ChecksumAlgorithm

/-- A running checksum. The crates' hashers are the bytes fed to them so far. -/
inductive Checksummer where
  | crc32 (data : Bytes)
  | crc32c (crc : UInt32)
  | sha1 (data : Bytes)
  | sha256 (data : Bytes)
  | crc64Nvme (crc : UInt64)
  deriving DecidableEq, Repr

/-- A fresh running hasher for an algorithm. -/
def ChecksumAlgorithm.hasher : ChecksumAlgorithm → Checksummer
  | .crc32 => .crc32 []
  | .crc32c => .crc32c 0xFFFFFFFF
  | .sha1 => .sha1 []
  | .sha256 => .sha256 []
  | .crc64Nvme => .crc64Nvme 0xFFFFFFFFFFFFFFFF

def crc32ReflectedBit (polyRev crc : UInt32) : UInt32 :=
  if crc &&& 1 ≠ 0 then (crc >>> 1) ^^^ polyRev else crc >>> 1

/-- One byte folded into a reflected 32-bit CRC register. -/
def crc32ReflectedStep (crc : UInt32) (byte : UInt8) (polyRev : UInt32) : UInt32 :=
  (crc32ReflectedBit polyRev)^[8] (crc ^^^ byte.toUInt32)

def crc64ReflectedBit (polyRev crc : UInt64) : UInt64 :=
  if crc &&& 1 ≠ 0 then (crc >>> 1) ^^^ polyRev else crc >>> 1

/-- One byte folded into a reflected 64-bit CRC register. -/
def crc64ReflectedStep (crc : UInt64) (byte : UInt8) (polyRev : UInt64) : UInt64 :=
  (crc64ReflectedBit polyRev)^[8] (crc ^^^ byte.toUInt64)

def beBytes32 (x : UInt32) : Bytes :=
  [(x >>> 24).toUInt8, (x >>> 16).toUInt8, (x >>> 8).toUInt8, x.toUInt8]

def beBytes64 (x : UInt64) : Bytes :=
  [(x >>> 56).toUInt8, (x >>> 48).toUInt8, (x >>> 40).toUInt8, (x >>> 32).toUInt8,
    (x >>> 24).toUInt8, (x >>> 16).toUInt8, (x >>> 8).toUInt8, x.toUInt8]

namespace Checksummer

/-- Fold `data` into the running checksum. -/
def update : Checksummer → Bytes → Checksummer
  | .crc32 h, data => .crc32 (h ++ data)
  | .crc32c crc, data =>
    .crc32c (data.foldl (fun crc byte => crc32ReflectedStep crc byte CRC32C_POLY_REV) crc)
  | .sha1 h, data => .sha1 (h ++ data)
  | .sha256 h, data => .sha256 (h ++ data)
  | .crc64Nvme crc, data =>
    .crc64Nvme (data.foldl (fun crc byte => crc64ReflectedStep crc byte CRC64NVME_POLY_REV) crc)

/-- Finish the checksum and return it base64-encoded. -/
def finalizeBase64 (H : Hashes) : Checksummer → String
  | .crc32 h => H.base64 (beBytes32 (H.crc32 h))
  | .crc32c crc => H.base64 (beBytes32 (crc ^^^ 0xFFFFFFFF))
  | .sha1 h => H.base64 (H.sha1 h)
  | .sha256 h => H.base64 (H.sha256 h)
  | .crc64Nvme crc => H.base64 (beBytes64 (crc ^^^ 0xFFFFFFFFFFFFFFFF))

/-- Feeding a body in two parts is feeding it whole. -/
theorem update_append (c : Checksummer) (a b : Bytes) :
    c.update (a ++ b) = (c.update a).update b := by
  cases c <;> simp [update]

theorem update_nil (c : Checksummer) : c.update [] = c := by
  cases c <;> simp [update]

end Checksummer

/-- The check values of the two registers over `123456789`. -/
example : (ChecksumAlgorithm.crc32c.hasher).update (utf8 "123456789") =
    .crc32c (0xE3069283 ^^^ 0xFFFFFFFF) := by decide +kernel
example : (ChecksumAlgorithm.crc64Nvme.hasher).update (utf8 "123456789") =
    .crc64Nvme (0xAE8B14860A799888 ^^^ 0xFFFFFFFFFFFFFFFF) := by decide +kernel

/-- A checksum stored beside an object: which algorithm, and the base64 value. -/
structure StoredChecksum where
  algorithm : ChecksumAlgorithm
  value : String
  deriving DecidableEq, Repr

/-- The checksum of a whole body. -/
def ChecksumAlgorithm.of (H : Hashes) (a : ChecksumAlgorithm) (body : Bytes) : StoredChecksum :=
  ⟨a, (a.hasher.update body).finalizeBase64 H⟩

end Aks3.Engine
