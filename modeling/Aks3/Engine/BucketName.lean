import Aks3.Lib.Text

/-!
# Legal bucket names

3 to 63 characters from `[a-z0-9.-]`, starting and ending alphanumeric, with no
`..`, `.-` or `-.` and not shaped like an IPv4 address. The rule is also what
makes a bucket name one safe path component.
-/

set_option autoImplicit false

namespace Aks3.Engine

open Lib

/-- The characters a bucket name may start and end with. -/
def isBucketAlnum (b : UInt8) : Bool :=
  (0x61 ≤ b && b ≤ 0x7A) || (0x30 ≤ b && b ≤ 0x39)

/-- A non-empty run of ASCII digits. -/
def isDecimalGroup (g : Bytes) : Bool :=
  !g.isEmpty && g.all fun b => 0x30 ≤ b && b ≤ 0x39

/-- Exactly four groups of ASCII digits separated by dots. -/
def looksLikeIpv4 (name : String) : Bool :=
  let groups := (utf8 name).splitOn 0x2E
  groups.length = 4 && groups.all isDecimalGroup

/-- `str::contains`. -/
def containsStr (name pat : String) : Bool := (find (utf8 pat) (utf8 name)).isSome

/-- Whether `name` is a legal bucket name. -/
def isValidBucketName (name : String) : Bool :=
  let bytes := utf8 name
  if !(3 ≤ bytes.length && bytes.length ≤ 63) then false
  else if containsStr name ".." || containsStr name ".-" || containsStr name "-." then false
  else if looksLikeIpv4 name then false
  else if !(bytes.head?.any isBucketAlnum && bytes.getLast?.any isBucketAlnum) then false
  else bytes.all fun b => isBucketAlnum b || b = 0x2E || b = 0x2D

example : isValidBucketName "my-bucket.1" = true ∧ isValidBucketName "10.0.0.1" = false ∧
    isValidBucketName "ab" = false ∧ isValidBucketName "a..b" = false := by decide

end Aks3.Engine
